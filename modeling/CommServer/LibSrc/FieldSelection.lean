import CommServer.LibSrc.BaseSpec

/-!
# FieldSelection — what `get_str` returns, and where it writes

Two results about `get_str` on a NUL-terminated source, each for every delimiter and field number:

* `getStr_contained_iff` : every store lies inside the 2049 bytes of `des_str`, and a terminator
  with it, exactly when the selected component has at most 2048 bytes;
* `getStr_selects` : up to that length `get_str` is the selection of a component of the split.

The cap of the copying loop is tested before the store, so a longer component leaves the loop with
the index 2049, and the terminator is stored behind the array (`getStr_beyond`).
-/

namespace CommServer

open CLib Text

/-! ## The indices the copying loop stores to -/

section Stores

variable {d z : List Byte}

/-- No store of the copying loop lies behind the index at which it stops. -/
theorem copyField_stores (dlmt : List Byte) (n : Nat) (p : List Byte) (i : Nat) (ds : DesStr)
    {j : Nat} {ds' : DesStr} (h : copyField dlmt n p i ds = some (j, ds')) :
    i ≤ j ∧ ∀ k ∈ ds'.stores, k ∈ ds.stores ∨ k ≤ j := by
  induction p generalizing i ds with
  | nil =>
      rw [copyField.eq_def] at h
      cases hc : strncmp [] dlmt n with
      | none => simp [hc] at h
      | some c =>
          simp only [hc] at h
          split_ifs at h with hc0 hcap
          · cases h
            exact ⟨Nat.le_refl _, fun k hk => .inl hk⟩
          · cases h
            exact ⟨Nat.le_refl _, fun k hk => .inl hk⟩
  | cons b q ih =>
      rw [copyField.eq_def] at h
      cases hc : strncmp (b :: q) dlmt n with
      | none => simp [hc] at h
      | some c =>
          simp only [hc] at h
          have hstored : ∀ k ∈ (ds.store i b).stores, k ∈ ds.stores ∨ k = i := by
            intro k hk
            simpa [DesStr.store] using hk
          split_ifs at h with hc0 hcap hb
          · cases h
            exact ⟨Nat.le_refl _, fun k hk => .inl hk⟩
          · cases h
            exact ⟨Nat.le_refl _, fun k hk => .inl hk⟩
          · -- The terminator of the source is stored at the index where the loop stops.
            cases h
            refine ⟨Nat.le_refl _, fun k hk => ?_⟩
            rcases hstored k hk with hk | rfl
            · exact .inl hk
            · exact .inr (Nat.le_refl _)
          · rcases ih (i + 1) (ds.store i b) h with ⟨hle, hall⟩
            refine ⟨by omega, fun k hk => ?_⟩
            rcases hall k hk with hk | hk
            · rcases hstored k hk with hk | rfl
              · exact .inl hk
              · exact .inr (by omega)
            · exact .inr hk

/-- A field number below one selects the first field. -/
theorem getStr_fieldNumber (source : List Byte) (m : Int) (dlmt : List Byte) :
    getStr source m dlmt = getStr source (((m - 1).toNat : Int) + 1) dlmt := by
  by_cases hm : 1 ≤ m
  · have hnum : (((m - 1).toNat : Int) + 1) = m := by omega
    rw [hnum]
  · have hnum : (((m - 1).toNat : Int) + 1) = 1 := by omega
    -- Both skipping loops are left at once.
    have hskip (dlmt source : List Byte) (n : Nat) :
        skipFields dlmt n m 1 source = skipFields dlmt n 1 1 source := by
      rw [skipFields, skipFields]
      simp [show ¬ (1 < m) by omega]
    rw [hnum]
    simp only [getStr, hskip]

/-- The last store of `get_str` is at the length of the component, or at the cap; the others do not
lie behind it. -/
theorem getStr_stores (hd : (0 : Byte) ∉ d) (hne : d ≠ []) {s : List Byte} (hs : (0 : Byte) ∉ s)
    (rest : List Byte) (k : Nat) :
    ∃ ds, getStr (s ++ 0 :: rest) ((k : Int) + 1) (d ++ 0 :: z) = some ds ∧
      (∀ i ∈ ds.stores, i ≤ min (field d s k).length desStrLen) ∧
      (field d s k ≠ [] → min (field d s k).length desStrLen ∈ ds.stores) := by
  rcases getStr_cases (z := z) hd hne hs rest k with ⟨hrun, hfield⟩ | ⟨t, ds, hcopy, -, hrun⟩
  · -- The source ended first, and nothing is stored.
    exact ⟨DesStr.cleared, hrun, by simp [DesStr.cleared], fun h => absurd hfield h⟩
  · rcases copyField_stores _ _ _ _ _ hcopy with ⟨-, hall⟩
    refine ⟨_, hrun, ?_, ?_⟩
    · intro i hi
      have hi' : i ∈ ds.stores ∨ i = min (field d s k).length desStrLen := by
        simpa [DesStr.store] using hi
      rcases hi' with hi' | rfl
      · rcases hall i hi' with hclear | hle
        · simp [DesStr.cleared] at hclear
        · exact hle
      · exact Nat.le_refl _
    · intro _
      simp [DesStr.store]

/-- A component that is too long has its terminator stored behind the array. -/
theorem getStr_beyond (hd : (0 : Byte) ∉ d) (hne : d ≠ []) {s : List Byte} (hs : (0 : Byte) ∉ s)
    (rest : List Byte) {k : Nat} (hlong : 2048 < (field d s k).length) :
    ∃ ds, getStr (s ++ 0 :: rest) ((k : Int) + 1) (d ++ 0 :: z) = some ds ∧
      desStrLen ∈ ds.stores := by
  rcases getStr_stores (z := z) hd hne hs rest k with ⟨ds, hrun, -, hlast⟩
  have hcap : min (field d s k).length desStrLen = desStrLen := Nat.min_eq_right hlong
  have hfull : field d s k ≠ [] := by
    intro h
    simp [h] at hlong
  exact ⟨ds, hrun, hcap ▸ hlast hfull⟩

end Stores

/-! ## The array of `get_str` -/

/-- Nothing is stored outside the 2049 bytes of `des_str`, and one of them is a terminator. -/
structure DesStr.Contained (ds : DesStr) : Prop where
  inside : ∀ i ∈ ds.stores, i < desStrLen
  terminated : (0 : Byte) ∈ ds.cells.bytes.take desStrLen

/-- A string that ends before the last byte of the array has its terminator in the array. -/
theorem DesStr.terminated_of_length {ds : DesStr} (h : (0 : Byte) ∈ ds.cells.bytes)
    (hlen : ds.str.length < desStrLen) : (0 : Byte) ∈ ds.cells.bytes.take desStrLen := by
  rcases eq_cstr_append_zero h with ⟨rest, hrest⟩
  have htake : ds.str ++ [0] <+: ds.cells.bytes.take desStrLen := by
    rw [List.prefix_take_iff]
    refine ⟨⟨rest, ?_⟩, ?_⟩
    · rw [hrest]
      simp [DesStr.str, Buf.str]
    · rw [List.length_append, List.length_singleton]
      omega
  exact htake.subset (by simp)

/-- Up to 2048 bytes the component is returned whole, and the array contains it. -/
theorem getStr_short {s d z : List Byte} (hs : (0 : Byte) ∉ s) (hd : (0 : Byte) ∉ d) (hne : d ≠ [])
    (rest : List Byte) {k : Nat} (hshort : (field d s k).length ≤ 2048) :
    ∃ ds, getStr (s ++ 0 :: rest) ((k : Int) + 1) (d ++ 0 :: z) = some ds ∧
      ds.str = field d s k ∧ ds.Contained := by
  rcases getStr_stores (z := z) hd hne hs rest k with ⟨ds, hrun, hall, -⟩
  rcases getStr_spec (z := z) hd hne hs rest k with ⟨ds', hrun', hstr, hmem⟩
  have heq : ds' = ds := Option.some.inj (hrun'.symm.trans hrun)
  subst heq
  have hwhole : ds'.str = field d s k := by
    rw [hstr, List.take_of_length_le (Nat.le_succ_of_le hshort)]
  refine ⟨ds', hrun, hwhole, ⟨fun i hi => ?_, ?_⟩⟩
  · calc
      i ≤ min (field d s k).length desStrLen := hall i hi
      _ ≤ (field d s k).length := Nat.min_le_left _ _
      _ < desStrLen := Nat.lt_succ_of_le hshort
  · refine DesStr.terminated_of_length hmem ?_
    rw [hwhole]
    exact Nat.lt_succ_of_le hshort

/-- `get_str` stays inside its array, and leaves it terminated, exactly for the components of at
most 2048 bytes. -/
theorem getStr_contained_iff {s d : List Byte} (hs : (0 : Byte) ∉ s) (hd : (0 : Byte) ∉ d)
    (hne : d ≠ []) (rest z : List Byte) (m : Int) :
    (∃ ds, getStr (s ++ 0 :: rest) m (d ++ 0 :: z) = some ds ∧ ds.Contained) ↔
      (field d s (m - 1).toNat).length ≤ 2048 := by
  rw [getStr_fieldNumber]
  constructor
  · rintro ⟨ds, hrun, hcont⟩
    refine Nat.le_of_not_lt fun hlong => ?_
    rcases getStr_beyond (z := z) hd hne hs rest hlong with ⟨ds', hrun', hmem⟩
    have heq : ds = ds' := Option.some.inj (hrun.symm.trans hrun')
    exact absurd (hcont.inside _ (heq ▸ hmem)) (Nat.lt_irrefl _)
  · intro hshort
    rcases getStr_short (z := z) hs hd hne rest hshort with ⟨ds, hrun, -, hcont⟩
    exact ⟨ds, hrun, hcont⟩

theorem getStr_contained_service :
    ∃ ds, getStr (ascii "12$svc" ++ 0 :: []) 2 (ascii "$" ++ 0 :: []) = some ds ∧ ds.Contained :=
  (getStr_contained_iff (by decide) (by decide) (by decide) [] [] 2).2 (by decide)

/-- One byte more than fits: 2049 letters without a delimiter. -/
theorem getStr_2049_letters :
    ¬ ∃ ds, getStr (List.replicate 2049 0x61 ++ [0]) 1 [0x24, 0] = some ds ∧ ds.Contained := by
  rintro ⟨ds, hrun, hcont⟩
  have hletters : (0x24 : Byte) ∉ List.replicate 2049 (0x61 : Byte) := by
    intro h
    exact absurd (List.eq_of_mem_replicate h) (by decide)
  have hnul : (0 : Byte) ∉ List.replicate 2049 (0x61 : Byte) := by
    intro h
    exact absurd (List.eq_of_mem_replicate h) (by decide)
  have hlong : 2048 < (field [0x24] (List.replicate 2049 (0x61 : Byte)) 0).length := by
    rw [field_self hletters, List.length_replicate]
    decide
  rcases getStr_beyond (d := [0x24]) (z := []) (by decide) (by decide) hnul [] hlong with
    ⟨ds', hrun', hmem⟩
  have heq : ds = ds' := Option.some.inj (hrun.symm.trans hrun')
  exact absurd (hcont.inside _ (heq ▸ hmem)) (Nat.lt_irrefl _)

/-! ## Field selection -/

/-- `get_str` is field selection.  The memory of the source ends with its terminator, so a result
says that nothing behind it is read. -/
theorem getStr_selects {s d : List Byte} {fs : List (List Byte)} (hs : (0 : Byte) ∉ s)
    (hd : (0 : Byte) ∉ d) (hne : d ≠ []) (hsplit : Splits d s fs) {m : Int} (hm : 1 ≤ m)
    (hlen : ∀ f, fs[(m - 1).toNat]? = some f → f.length ≤ 2048) :
    (∃ ds, getStr (s ++ [0]) m (d ++ [0]) = some ds ∧
        ds.str = (fs[(m - 1).toNat]?).getD [] ∧ ds.Contained) ∧
      -- Consecutive delimiters give an empty component.
      (∀ f t ts, FirstAt d f (d ++ t) → Splits d t ts →
        Splits d (f ++ d ++ (d ++ t)) (f :: [] :: ts)) ∧
      -- A trailing delimiter gives a final empty component.
      (∀ f, FirstAt d f [] → Splits d (f ++ d) [f, []]) := by
  have hfield : field d s (m - 1).toNat = (fs[(m - 1).toNat]?).getD [] :=
    field_of_splits hne hsplit _
  have hshort : (field d s (m - 1).toNat).length ≤ 2048 := by
    rw [hfield]
    cases hget : fs[(m - 1).toNat]? with
    | none => simp
    | some f => simpa using hlen f hget
  have hnum : (((m - 1).toNat : Int) + 1) = m := by omega
  refine ⟨?_, ?_, ?_⟩
  · rcases getStr_short (z := []) hs hd hne [] hshort with ⟨ds, hrun, hstr, hcont⟩
    rw [hnum] at hrun
    exact ⟨ds, hrun, hstr.trans hfield, hcont⟩
  · intro f t ts hfirst hts
    exact .next hfirst (.next (firstAt_nil d t) hts)
  · intro f hfirst
    have hend : ¬ d <:+: [] := fun h => hne (List.infix_nil.1 h)
    simpa using Splits.next hfirst (.last hend)

/-- The second of three fields, the way `process_parse` reads the service name. -/
theorem getStr_selects_service :
    ∃ ds, getStr (ascii "12$svc$x" ++ [0]) 2 (ascii "$" ++ [0]) = some ds ∧
      ds.str = ascii "svc" ∧ ds.Contained := by
  have hsplit : Splits (ascii "$") (ascii "12$svc$x")
      [ascii "12", ascii "svc", ascii "x"] := (splits_iff (by decide)).2 (by decide)
  have hsel := getStr_selects (m := 2) (by decide) (by decide) (by decide) hsplit (by decide)
    (by decide)
  exact hsel.1

end CommServer
