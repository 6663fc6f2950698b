import CommServer.LibSrc.Base

/-!
# BaseSpec — what `libsrc/base.c` computes on NUL-terminated strings

One specification for each function of `Base`, through which the rest of the development uses it:

* `getStr_spec`     : `get_str` selects a component, cut at the size of its static array;
* `bclTrimall_spec` : `bcl_trimall` drops the spaces;
* `bclLtrim_spec`   : `bcl_ltrim` drops the blank prefix;
* `bclRtrim_spec`   : `bcl_rtrim` drops the blank suffix.
-/

namespace CommServer

open CLib Text

/-! ## `get_str`: the skipping loop -/

section GetStr

variable {d : List Byte} {z : List Byte}

/-- One round of the skipping loop. -/
theorem skipFields_round {dlmt p q : List Byte} {n : Nat} {m i c : Int} {b : Byte} (hlt : i < m)
    (hcmp : strncmp p dlmt n = some c) (hmove : (skipMove c n i p).2 = b :: q) :
    skipFields dlmt n m i p =
      if b = 0 then some none
      else skipFields dlmt n m (skipMove c n i p).1 (b :: q) := by
  rw [skipFields]
  simp only [hlt, if_true, hcmp]
  split
  · -- The cursor is inside the source, by `hmove`.
    rename_i hnil
    rw [hmove] at hnil
    cases hnil
  · rename_i b' q' hcons
    have heq : b :: q = b' :: q' := hmove.symm.trans hcons
    cases heq
    rfl

/-- A round moves the cursor from the text `t` to a text `t'` inside the source, and the wanted
component of `t` is the one of `t'` that is still to be reached. -/
theorem skipMove_spec (hd : (0 : Byte) ∉ d) (hne : d ≠ []) (rest : List Byte) (k : Nat) (i : Int)
    {t : List Byte} (ht : (0 : Byte) ∉ t) (htne : t ≠ []) :
    ∃ (c : Int) (t' : List Byte) (k' : Nat),
      strncmp (t ++ 0 :: rest) (d ++ 0 :: z) d.length = some c ∧
      (skipMove c d.length i (t ++ 0 :: rest)).2 = t' ++ 0 :: rest ∧
      (skipMove c d.length i (t ++ 0 :: rest)).1 + (k' : Int) = i + ((k + 1 : Nat) : Int) ∧
      field d t (k + 1) = field d t' k' ∧ (0 : Byte) ∉ t' ∧ k' + t'.length < k + 1 + t.length := by
  rcases strncmp_word hd ht rest z with ⟨c, hc, hciff⟩
  by_cases hpre : d <+: t
  · -- A delimiter stands at the cursor: it is skipped whole and counted.
    have hc0 : c = 0 := hciff.2 hpre
    have hlen : d.length ≤ t.length := hpre.length_le
    have ht' : (0 : Byte) ∉ t.drop d.length := fun h => ht (List.mem_of_mem_drop h)
    refine ⟨c, t.drop d.length, k, hc, ?_, ?_, ?_, ht', ?_⟩
    · simp [skipMove, hc0, List.drop_append_of_le_length hlen]
    · simp only [skipMove, hc0, if_true]
      omega
    · simp [field, fields_at_word hne hpre]
    · simp only [List.length_drop]
      omega
  · -- Anything else is one byte of the current component.
    have hc0 : c ≠ 0 := fun h => hpre (hciff.1 h)
    cases t with
    | nil => exact absurd rfl htne
    | cons a s =>
        have hs : (0 : Byte) ∉ s := fun h => ht (List.mem_cons_of_mem _ h)
        refine ⟨c, s, k + 1, hc, ?_, ?_, ?_, hs, ?_⟩
        · simp [skipMove, hc0]
        · simp [skipMove, hc0]
        · simp only [field, drop_succ_fields_cons hpre]
        · simp only [List.length_cons]
          omega

/-- The skipping loop from a cursor inside the source, with `k` delimiters still to skip.  Either it
returns early, and then the wanted component is empty or absent, or it stops at a text whose first
component is the wanted one. -/
theorem skipFields_spec (hd : (0 : Byte) ∉ d) (hne : d ≠ []) (rest : List Byte) (k : Nat) (i : Int)
    {t : List Byte} (ht : (0 : Byte) ∉ t) (htne : t ≠ []) :
    (skipFields (d ++ 0 :: z) d.length (i + k) i (t ++ 0 :: rest) = some none ∧
        field d t k = []) ∨
      ∃ t', (0 : Byte) ∉ t' ∧ field d t k = field d t' 0 ∧
        skipFields (d ++ 0 :: z) d.length (i + k) i (t ++ 0 :: rest) =
          some (some (t' ++ 0 :: rest)) := by
  -- Each round skips a delimiter or a byte, so the induction is on what is left of both.
  induction hn : k + t.length using Nat.strongRecOn generalizing k i t with
  | _ n ih =>
      cases k with
      | zero =>
          right
          refine ⟨t, ht, rfl, ?_⟩
          rw [skipFields]
          simp
      | succ k =>
          have hlt : i < i + ((k + 1 : Nat) : Int) := by omega
          obtain ⟨c, t', k', hc, hmove, hcount, hfield, ht', hsize⟩ :=
            skipMove_spec (z := z) hd hne rest k i ht htne
          cases t' with
          | nil =>
              -- The cursor reached the terminator of the source.
              left
              refine ⟨?_, by simpa using hfield⟩
              rw [skipFields_round hlt hc hmove]
              simp
          | cons b q =>
              have hb : b ≠ 0 := by
                rintro rfl
                simp at ht'
              have hround :
                  skipFields (d ++ 0 :: z) d.length (i + ((k + 1 : Nat) : Int)) i
                      (t ++ 0 :: rest) =
                    skipFields (d ++ 0 :: z) d.length
                      ((skipMove c d.length i (t ++ 0 :: rest)).1 + (k' : Int))
                      (skipMove c d.length i (t ++ 0 :: rest)).1 (b :: q ++ 0 :: rest) := by
                rw [skipFields_round hlt hc hmove, hcount]
                simp [hb]
              rw [hround, hfield]
              exact ih (k' + (b :: q).length) (by omega) k' _ ht' (List.cons_ne_nil b q) rfl

/-! ## `get_str`: the copying loop -/

theorem copyField_of_delimiter {dlmt p : List Byte} {n i : Nat} {ds : DesStr}
    (hcmp : strncmp p dlmt n = some 0) : copyField dlmt n p i ds = some (i, ds) := by
  rw [copyField.eq_def]
  simp [hcmp]

theorem copyField_cons {dlmt q : List Byte} {n : Nat} {c : Int} {b : Byte} (i : Nat)
    (ds : DesStr) (hcmp : strncmp (b :: q) dlmt n = some c) (hc : c ≠ 0) :
    copyField dlmt n (b :: q) i ds =
      if i > 2048 then some (i, ds)
      else if b = 0 then some (i, ds.store i b)
      else copyField dlmt n q (i + 1) (ds.store i b) := by
  rw [copyField.eq_def]
  simp [hcmp, hc]

theorem take_store (ds : DesStr) (i : Nat) (b : Byte) :
    (ds.store i b).cells.bytes.take i = ds.cells.bytes.take i :=
  List.take_set_of_le (Nat.le_refl i)

theorem take_succ_store (ds : DesStr) {i : Nat} (b : Byte) (hi : i ≤ desStrLen) :
    (ds.store i b).cells.bytes.take (i + 1) = ds.cells.bytes.take i ++ [b] := by
  have hlen : i < ds.cells.bytes.length := by
    rw [ds.cells.size]
    omega
  simp [DesStr.store, List.take_add_one, hlen, List.take_set_of_le]

/-- The copying loop from the text `t`, with `i` bytes already copied: it stops behind the first
component of `t`, or at the cap, and has copied what lies before. -/
theorem copyField_spec (hd : (0 : Byte) ∉ d) (hne : d ≠ []) (rest : List Byte) (i : Nat)
    (ds : DesStr) {t : List Byte} (ht : (0 : Byte) ∉ t) (hi : i ≤ desStrLen) :
    ∃ ds', copyField (d ++ 0 :: z) d.length (t ++ 0 :: rest) i ds =
        some (min (i + (field d t 0).length) desStrLen, ds') ∧
      ds'.cells.bytes.take (min (i + (field d t 0).length) desStrLen) =
        (ds.cells.bytes.take i ++ field d t 0).take desStrLen := by
  have hcapLen : desStrLen = 2049 := rfl
  have hwhole : (ds.cells.bytes.take i).take desStrLen = ds.cells.bytes.take i := by
    rw [List.take_take, Nat.min_eq_right hi]
  -- One byte of `t` a round; the byte stored and the index move together, so both are general.
  induction t generalizing i ds with
  | nil =>
      -- The terminator of the source is copied too, at the index where the loop stops.
      rcases strncmp_word hd ht rest z with ⟨c, hc, hciff⟩
      have hc0 : c ≠ 0 := fun h => hne (List.prefix_nil.1 (hciff.1 h))
      have hmin : min (i + (field d [] 0).length) desStrLen = i := by simp [hi]
      rw [hmin, List.nil_append, copyField_cons i ds hc hc0]
      by_cases hcap : i > 2048
      · exact ⟨ds, by simp [hcap], by simp [hwhole]⟩
      · exact ⟨ds.store i 0, by simp [hcap], by simp [take_store, hwhole]⟩
  | cons a s ih =>
      rcases strncmp_word hd ht rest z with ⟨c, hc, hciff⟩
      by_cases hpre : d <+: a :: s
      · -- The component ends at a delimiter.
        have hc0 : c = 0 := hciff.2 hpre
        have hfield : field d (a :: s) 0 = [] := by
          simp [field, fields_at_word hne hpre]
        have hmin : min (i + (field d (a :: s) 0).length) desStrLen = i := by simp [hfield, hi]
        rw [hmin]
        exact ⟨ds, copyField_of_delimiter (hc0 ▸ hc), by simp [hfield, hwhole]⟩
      · have hc0 : c ≠ 0 := fun h => hpre (hciff.1 h)
        have ha : a ≠ 0 := by
          rintro rfl
          simp at ht
        have hs : (0 : Byte) ∉ s := fun h => ht (List.mem_cons_of_mem _ h)
        have hfield : field d (a :: s) 0 = a :: field d s 0 := headD_fields_cons hpre
        have hrun : copyField (d ++ 0 :: z) d.length (a :: s ++ 0 :: rest) i ds =
            if i > 2048 then some (i, ds)
            else copyField (d ++ 0 :: z) d.length (s ++ 0 :: rest) (i + 1) (ds.store i a) := by
          have hround := copyField_cons i ds hc hc0
          simpa [ha] using hround
        rw [hrun]
        by_cases hcap : i > 2048
        · -- The cap: 2049 bytes are copied and the rest of the component is dropped.
          have hi' : i = desStrLen := by omega
          have hlen : (ds.cells.bytes.take desStrLen).length = desStrLen := by
            simp [ds.cells.size]
          refine ⟨ds, ?_, ?_⟩
          · simp [hi']
          · subst hi'
            rw [List.take_append_of_le_length (by omega), hwhole]
            simp
        · have hi' : i + 1 ≤ desStrLen := by omega
          obtain ⟨ds', hrest, htake⟩ := ih (i + 1) (ds.store i a) hs hi' (by
            rw [List.take_take, Nat.min_eq_right hi'])
          have hmin : min (i + (field d (a :: s) 0).length) desStrLen =
              min (i + 1 + (field d s 0).length) desStrLen := by
            rw [hfield, List.length_cons]
            omega
          refine ⟨ds', ?_, ?_⟩
          · rw [if_neg hcap, hrest, hmin]
          · rw [hmin, htake, take_succ_store ds a hi, hfield]
            simp

/-! ## `get_str` -/

/-- `get_str` on a NUL-terminated source ends in one of two ways: with `des_str` as it was cleared,
or with what the copying loop has stored of the component and a terminator behind it. -/
theorem getStr_cases (hd : (0 : Byte) ∉ d) (hne : d ≠ []) {s : List Byte} (hs : (0 : Byte) ∉ s)
    (rest : List Byte) (k : Nat) :
    (getStr (s ++ 0 :: rest) ((k : Int) + 1) (d ++ 0 :: z) = some DesStr.cleared ∧
        field d s k = []) ∨
      ∃ t ds, copyField (d ++ 0 :: z) d.length (t ++ 0 :: rest) 0 DesStr.cleared =
          some (min (field d s k).length desStrLen, ds) ∧
        ds.cells.bytes.take (min (field d s k).length desStrLen) =
          (field d s k).take desStrLen ∧
        getStr (s ++ 0 :: rest) ((k : Int) + 1) (d ++ 0 :: z) =
          some (ds.store (min (field d s k).length desStrLen) 0) := by
  have hlens := strlen_append_zero hs rest
  have hlend := strlen_append_zero hd z
  by_cases hnil : s = []
  · -- The empty source is answered before the loops.
    left
    simp [getStr, hnil, strlen]
  · have hlen0 : s.length ≠ 0 := fun h => hnil (List.length_eq_zero_iff.1 h)
    have hskip := skipFields_spec (z := z) hd hne rest k 1 hs hnil
    rw [Int.add_comm 1 (k : Int)] at hskip
    -- Either the source ends first, or the copying starts at the component.
    rcases hskip with ⟨hrun, hfield⟩ | ⟨t, ht, hfield, hrun⟩
    · left
      exact ⟨by simp [getStr, hlens, hlend, hrun], hfield⟩
    · right
      rcases copyField_spec (z := z) hd hne rest 0 DesStr.cleared ht (Nat.zero_le _) with
        ⟨ds, hcopy, htake⟩
      simp only [Nat.zero_add, List.take_zero, List.nil_append] at hcopy htake
      rw [hfield]
      exact ⟨t, ds, hcopy, htake, by simp [getStr, hlens, hlend, hlen0, hrun, hcopy]⟩

/-- `get_str` on a NUL-terminated source: component `k + 1` of the source, cut at 2049 bytes. -/
theorem getStr_spec (hd : (0 : Byte) ∉ d) (hne : d ≠ []) {s : List Byte} (hs : (0 : Byte) ∉ s)
    (rest : List Byte) (k : Nat) :
    ∃ ds, getStr (s ++ 0 :: rest) ((k : Int) + 1) (d ++ 0 :: z) = some ds ∧
      ds.str = (field d s k).take desStrLen ∧ (0 : Byte) ∈ ds.cells.bytes := by
  -- The string is shorter than the memory behind `des_str`, so a terminator ends it.
  suffices h : ∃ ds, getStr (s ++ 0 :: rest) ((k : Int) + 1) (d ++ 0 :: z) = some ds ∧
      ds.str = (field d s k).take desStrLen by
    rcases h with ⟨ds, hrun, hstr⟩
    refine ⟨ds, hrun, hstr, Buf.zero_mem_of_length_str_lt ?_⟩
    have hlen : ds.cells.str = (field d s k).take desStrLen := hstr
    rw [hlen, List.length_take]
    omega
  rcases getStr_cases (z := z) hd hne hs rest k with ⟨hrun, hfield⟩ | ⟨t, ds, -, htake, hrun⟩
  · have hcleared : DesStr.cleared.str = [] := Buf.str_zeroed
    exact ⟨DesStr.cleared, hrun, by simp [hfield, hcleared]⟩
  · -- The terminator lands right behind what was copied.
    have hclean : (0 : Byte) ∉ (field d s k).take desStrLen :=
      fun h => hs (mem_of_mem_field (List.mem_of_mem_take h))
    exact ⟨_, hrun, str_set_of_take hclean (by omega) htake⟩

end GetStr

/-! ## The trims -/

section Trims

variable {n : Nat}

theorem trimallLoop_of_get {b : Buf n} {str ptr : Nat} {c : Byte} (h : b.bytes[ptr]? = some c) :
    trimallLoop b str ptr =
      if c = 0 then some (b, str)
      else if c = 0x20 then trimallLoop b str (ptr + 1)
      else (b.put str c).bind fun b' => trimallLoop b' (str + 1) (ptr + 1) := by
  rw [trimallLoop]
  split
  · rename_i hnone
    rw [h] at hnone
    cases hnone
  · rename_i c' hsome
    rw [h] at hsome
    cases hsome
    cases b.put str c <;> rfl

/-- The byte at the read cursor, `L` bytes behind the write cursor. -/
theorem get_at_cursor {b : Buf n} {w x t : List Byte} {L : Nat} {c : Byte}
    (hbytes : b.bytes = w ++ x) (hx : x.drop L = c :: t) : b.bytes[w.length + L]? = some c := by
  rw [hbytes, List.getElem?_append_right (Nat.le_add_right _ L), Nat.add_sub_cancel_left,
    ← List.head?_drop, hx]
  rfl

/-- A store at the write cursor lands on a byte that has been read. -/
theorem put_at_cursor {b : Buf n} {w x t : List Byte} {L : Nat} {c : Byte}
    (hbytes : b.bytes = w ++ x) (hx : x.drop L = c :: t) (a : Byte) :
    ∃ b' x', b.put w.length a = some b' ∧ b'.bytes = (w ++ [a]) ++ x' ∧ x'.drop L = t := by
  cases x with
  | nil => simp at hx
  | cons y x =>
      have hlt : w.length < n := Buf.lt_of_bytes hbytes
      have hnext : x.drop L = t := by
        have hstep := congrArg (List.drop 1) hx
        simpa [List.drop_drop, Nat.add_comm] using hstep
      exact ⟨b.set w.length a, x, Buf.put_of_lt _ _ hlt, by simp [hbytes], hnext⟩

/-- The loop of `bcl_trimall`, with the text `w` already moved down and the text `v` still to read.
The write cursor is `L` bytes behind the read cursor. -/
theorem trimallLoop_spec (b : Buf n) {w v x : List Byte} (rest : List Byte) (L : Nat)
    (hbytes : b.bytes = w ++ x) (hx : x.drop L = v ++ 0 :: rest) (hv : (0 : Byte) ∉ v) :
    ∃ b', trimallLoop b w.length (w.length + L) =
        some (b', w.length + (v.filter (· ≠ 0x20)).length) ∧
      b'.bytes.take (w.length + (v.filter (· ≠ 0x20)).length) = w ++ v.filter (· ≠ 0x20) := by
  -- A space widens the gap, anything else goes from `v` to `w`.
  induction v generalizing b w x L with
  | nil =>
      refine ⟨b, ?_, ?_⟩
      · rw [trimallLoop_of_get (get_at_cursor hbytes hx)]
        rfl
      · simp [hbytes]
  | cons a v ih =>
      have ha : a ≠ 0 := by
        rintro rfl
        simp at hv
      have hv' : (0 : Byte) ∉ v := fun h => hv (List.mem_cons_of_mem _ h)
      rw [trimallLoop_of_get (get_at_cursor hbytes hx), if_neg ha]
      by_cases hspace : a = 0x20
      · have hnext : x.drop (L + 1) = v ++ 0 :: rest := by
          have hstep := congrArg (List.drop 1) hx
          simpa [List.drop_drop, Nat.add_comm] using hstep
        have hfilter : (a :: v).filter (· ≠ 0x20) = v.filter (· ≠ 0x20) := by simp [hspace]
        rw [if_pos hspace, hfilter]
        exact ih b (L + 1) hbytes hnext hv'
      · have hfilter : (a :: v).filter (· ≠ 0x20) = a :: v.filter (· ≠ 0x20) := by simp [hspace]
        rcases put_at_cursor hbytes hx a with ⟨b₁, x', hput, hset, hnext⟩
        rcases ih b₁ L hset hnext hv' with ⟨b', hrun, htake⟩
        rw [if_neg hspace, hput, hfilter]
        refine ⟨b', ?_, ?_⟩
        · simpa [Nat.add_assoc, Nat.add_comm, Nat.add_left_comm] using hrun
        · simpa [Nat.add_assoc, Nat.add_comm, Nat.add_left_comm] using htake

/-- `bcl_trimall` removes the spaces. -/
theorem bclTrimall_spec (b : Buf n) (h : (0 : Byte) ∈ b.bytes) :
    ∃ b', bclTrimall b = some b' ∧ (0 : Byte) ∈ b'.bytes ∧ b'.str = b.str.filter (· ≠ 0x20) := by
  rcases eq_cstr_append_zero h with ⟨rest, hrest⟩
  rcases trimallLoop_spec b (w := []) rest 0 (List.nil_append _).symm hrest
    (zero_not_mem_cstr b.bytes) with ⟨b', hrun, htake⟩
  simp only [List.length_nil, Nat.zero_add, List.nil_append, Nat.add_zero] at hrun htake
  have hclean : (0 : Byte) ∉ (cstr b.bytes).filter (· ≠ 0x20) := fun hmem =>
    zero_not_mem_cstr b.bytes (List.mem_filter.1 hmem).1
  have hlt : ((cstr b.bytes).filter (· ≠ 0x20)).length < n := by
    have hle := List.length_filter_le (fun c : Byte => decide (c ≠ 0x20)) (cstr b.bytes)
    have hstr : (cstr b.bytes).length < n := Buf.length_str_lt h
    omega
  refine ⟨b'.set ((cstr b.bytes).filter (· ≠ 0x20)).length 0, ?_, ?_,
    str_set_of_take hclean hlt htake⟩
  · simp only [bclTrimall, hrun]
    exact Buf.put_of_lt _ _ hlt
  · have hlt' : ((cstr b.bytes).filter (· ≠ 0x20)).length < b'.bytes.length := by
      rw [b'.size]
      exact hlt
    exact List.mem_set hlt' 0

theorem ltrimSkip_of_get {b : Buf n} {j : Nat} {c : Byte} (h : b.bytes[j]? = some c) :
    ltrimSkip b j = if isBlank c then ltrimSkip b (j + 1) else some j := by
  rw [ltrimSkip]
  split
  · rename_i hnone
    rw [h] at hnone
    cases hnone
  · rename_i c' hsome
    rw [h] at hsome
    cases hsome
    rfl

theorem ltrimCopy_of_get {b : Buf n} {str ptr : Nat} {c : Byte} (h : b.bytes[ptr]? = some c) :
    ltrimCopy b str ptr =
      if c = 0 then some (b, str)
      else (b.put str c).bind fun b' => ltrimCopy b' (str + 1) (ptr + 1) := by
  rw [ltrimCopy]
  split
  · rename_i hnone
    rw [h] at hnone
    cases hnone
  · rename_i c' hsome
    rw [h] at hsome
    cases hsome
    cases b.put str c <;> rfl

/-- The read cursor stops behind the blank prefix of the text it starts at. -/
theorem ltrimSkip_spec (b : Buf n) {s : List Byte} (rest : List Byte) (j : Nat)
    (hdrop : b.bytes.drop j = s ++ 0 :: rest) :
    ltrimSkip b j = some (j + (s.takeWhile isBlank).length) := by
  induction s generalizing j with
  | nil =>
      -- The terminator is not blank.
      have hget : b.bytes[j]? = some 0 := by
        rw [← List.head?_drop, hdrop]
        rfl
      rw [ltrimSkip_of_get hget]
      rfl
  | cons a s ih =>
      have hget : b.bytes[j]? = some a := by
        rw [← List.head?_drop, hdrop]
        rfl
      have hdrop' : b.bytes.drop (j + 1) = s ++ 0 :: rest := by
        rw [← List.drop_drop, hdrop]
        rfl
      rw [ltrimSkip_of_get hget]
      by_cases ha : isBlank a
      · rw [if_pos ha, ih (j + 1) hdrop', List.takeWhile_cons_of_pos ha, List.length_cons]
        congr 1
        omega
      · rw [if_neg ha, List.takeWhile_cons_of_neg ha]
        rfl

/-- The copying loop, with the text `w` already moved down and the text `v` still to move.  The
write cursor is `L` bytes behind the read cursor, so a byte is read before it is overwritten. -/
theorem ltrimCopy_spec (b : Buf n) {w v x : List Byte} (rest : List Byte) (L : Nat)
    (hbytes : b.bytes = w ++ x) (hx : x.drop L = v ++ 0 :: rest) (hv : (0 : Byte) ∉ v) :
    ∃ b', ltrimCopy b w.length (w.length + L) = some (b', w.length + v.length) ∧
      b'.bytes.take (w.length + v.length) = w ++ v := by
  -- Each round moves one byte from `v` to `w`, and the gap of `L` bytes between the cursors stays.
  induction v generalizing b w x with
  | nil =>
      refine ⟨b, ?_, ?_⟩
      · rw [ltrimCopy_of_get (get_at_cursor hbytes hx)]
        rfl
      · simp [hbytes]
  | cons a v ih =>
      have ha : a ≠ 0 := by
        rintro rfl
        simp at hv
      have hv' : (0 : Byte) ∉ v := fun h => hv (List.mem_cons_of_mem _ h)
      rcases put_at_cursor hbytes hx a with ⟨b₁, x', hput, hset, hnext⟩
      rcases ih b₁ hset hnext hv' with ⟨b', hrun, htake⟩
      refine ⟨b', ?_, ?_⟩
      · rw [ltrimCopy_of_get (get_at_cursor hbytes hx), if_neg ha, hput]
        simpa [Nat.add_assoc, Nat.add_comm, Nat.add_left_comm] using hrun
      · simpa [Nat.add_assoc, Nat.add_comm, Nat.add_left_comm] using htake

/-- `bcl_ltrim` removes the blank prefix. -/
theorem bclLtrim_spec (b : Buf n) {s : List Byte} (rest : List Byte)
    (hbytes : b.bytes = s ++ 0 :: rest) (hs : (0 : Byte) ∉ s) :
    ∃ b', bclLtrim b = some b' ∧ (0 : Byte) ∈ b'.bytes ∧ b'.str = s.dropWhile isBlank := by
  have hskip : ltrimSkip b 0 = some (s.takeWhile isBlank).length := by
    simpa using ltrimSkip_spec b rest 0 hbytes
  have hcore : (0 : Byte) ∉ s.dropWhile isBlank :=
    fun h => hs ((List.dropWhile_sublist isBlank).subset h)
  have hx : b.bytes.drop (s.takeWhile isBlank).length = s.dropWhile isBlank ++ 0 :: rest := by
    calc
      b.bytes.drop (s.takeWhile isBlank).length
          = (s.takeWhile isBlank ++ (s.dropWhile isBlank ++ 0 :: rest)).drop
              (s.takeWhile isBlank).length := by
            rw [← List.append_assoc, List.takeWhile_append_dropWhile, hbytes]
      _ = s.dropWhile isBlank ++ 0 :: rest := List.drop_left
  obtain ⟨b', hcopy, htake⟩ :=
    ltrimCopy_spec b (w := []) rest _ (List.nil_append _).symm hx hcore
  simp only [List.length_nil, Nat.zero_add, List.nil_append] at hcopy htake
  have hlt : (s.dropWhile isBlank).length < n :=
    (List.length_dropWhile_le isBlank s).trans_lt (Buf.lt_of_bytes hbytes)
  refine ⟨b'.set (s.dropWhile isBlank).length 0, ?_, ?_, str_set_of_take hcore hlt htake⟩
  · simp [bclLtrim, hskip, hcopy, Buf.put_of_lt _ _ hlt]
  · have hlt' : (s.dropWhile isBlank).length < b'.bytes.length := by
      rw [b'.size]
      exact hlt
    exact List.mem_set hlt' 0

/-- The loop of `bcl_rtrim` from the end of the text `u`: every byte of the blank suffix becomes a
terminator. -/
theorem rtrimLoop_spec (b : Buf n) {u : List Byte} (rest : List Byte)
    (hbytes : b.bytes = u ++ 0 :: rest) :
    ∃ b', rtrimLoop b u.length = some b' ∧
      b'.bytes = u.rdropWhile isBlank ++
        0 :: (List.replicate (u.length - (u.rdropWhile isBlank).length) 0 ++ rest) := by
  -- The loop works from the end, and so does the induction.
  induction u using List.reverseRecOn generalizing b rest with
  | nil => exact ⟨b, rfl, by simpa using hbytes⟩
  | append_singleton u a ih =>
      have hget : b.bytes[u.length]? = some a := by
        simp [hbytes]
      have hlt : u.length < n := by
        rw [List.append_assoc] at hbytes
        exact Buf.lt_of_bytes hbytes
      rw [List.length_append, List.length_singleton]
      by_cases ha : isBlank a
      · -- A blank becomes one more terminator.
        have hset : (b.set u.length 0).bytes = u ++ 0 :: 0 :: rest := by
          simp [hbytes]
        have hle := (List.rdropWhile_prefix isBlank u).length_le
        rcases ih (b.set u.length 0) (0 :: rest) hset with ⟨b', hrun, hb'⟩
        refine ⟨b', ?_, ?_⟩
        · simp [rtrimLoop, hget, ha, Buf.put_of_lt _ _ hlt, hrun]
        · rw [hb', List.rdropWhile_concat_pos _ _ _ ha, Nat.succ_sub hle, List.replicate_succ',
            List.append_assoc, List.singleton_append]
      · refine ⟨b, ?_, ?_⟩
        · simp [rtrimLoop, hget, ha]
        · rw [hbytes, List.rdropWhile_concat_neg _ _ _ ha]
          simp

/-- What `bcl_rtrim` leaves of a text, of its terminator, and of what lies behind. -/
theorem bclRtrim_bytes (b : Buf n) {s : List Byte} (rest : List Byte)
    (hbytes : b.bytes = s ++ 0 :: rest) (hs : (0 : Byte) ∉ s) :
    ∃ b', bclRtrim b = some b' ∧
      b'.bytes = s.rdropWhile isBlank ++
        0 :: (List.replicate (s.length - (s.rdropWhile isBlank).length) 0 ++ rest) := by
  rcases rtrimLoop_spec b rest hbytes with ⟨b', hrun, hb'⟩
  refine ⟨b', ?_, hb'⟩
  rw [bclRtrim, hbytes, strlen_append_zero hs]
  exact hrun

/-- `bcl_rtrim` removes the blank suffix. -/
theorem bclRtrim_spec (b : Buf n) (h : (0 : Byte) ∈ b.bytes) :
    ∃ b', bclRtrim b = some b' ∧ (0 : Byte) ∈ b'.bytes ∧ b'.str = b.str.rdropWhile isBlank := by
  rcases eq_cstr_append_zero h with ⟨rest, hrest⟩
  rcases bclRtrim_bytes b rest hrest (zero_not_mem_cstr _) with ⟨b', hrun, hb'⟩
  have hstr : (0 : Byte) ∉ b.str.rdropWhile isBlank :=
    fun hmem => b.zero_not_mem_str ((List.rdropWhile_prefix _ _).subset hmem)
  exact ⟨b', hrun, by simp [hb'], Buf.str_of_bytes hstr _ hb'⟩

/-- The two trims in the order of `process_parse`. -/
theorem trims_spec (b : Buf n) (h : (0 : Byte) ∈ b.bytes) :
    ∃ b', (bclLtrim b).bind bclRtrim = some b' ∧ (0 : Byte) ∈ b'.bytes ∧
      b'.str = trim isBlank b.str := by
  rcases eq_cstr_append_zero h with ⟨rest, hrest⟩
  rcases bclLtrim_spec b rest hrest (zero_not_mem_cstr _) with ⟨b₁, hl, hmem, hstr⟩
  rcases bclRtrim_spec b₁ hmem with ⟨b₂, hr, hmem', hstr'⟩
  refine ⟨b₂, by simp [hl, hr], hmem', ?_⟩
  rw [hstr', hstr]
  rfl

/-- The two trims in the order of `get_cfg_value`. -/
theorem trims_back_spec (b : Buf n) (h : (0 : Byte) ∈ b.bytes) :
    ∃ b₁ b₂, bclRtrim b = some b₁ ∧ bclLtrim b₁ = some b₂ ∧ (0 : Byte) ∈ b₂.bytes ∧
      b₂.str = trim isBlank b.str := by
  rcases bclRtrim_spec b h with ⟨b₁, hr, hmem, hstr⟩
  rcases eq_cstr_append_zero hmem with ⟨rest, hrest⟩
  rcases bclLtrim_spec b₁ rest hrest (zero_not_mem_cstr _) with ⟨b₂, hl, hmem', hstr'⟩
  refine ⟨b₁, b₂, hr, hl, hmem', ?_⟩
  have hmid : cstr b₁.bytes = b.str.rdropWhile isBlank := hstr
  rw [hstr', hmid, dropWhile_rdropWhile]

end Trims

end CommServer
