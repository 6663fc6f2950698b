import CommServer.LibSrc.Config

/-!
# Lookup — does `get_cfg_value` find the named key?

A configuration is a list of lines, and a line that is no comment has a key and a value, its first
two words.  `fileValue name file` is the value of the first line with the key `name`.

* `getCfgValue_lines` : on lines that fit the buffer the code takes the second word of the first
  line that *begins with* the name;
* `findsKey_iff`      : when that is the lookup of the key.

A longer key that begins with the name is taken for it (`longer_key_is_taken`).
-/

namespace CommServer
namespace Config

open CLib Text

/-! ## The meaning of a file -/

/-- The value in the words of a line, if the first of them is the whole name. -/
def keyValue (name : List Byte) : List (List Byte) → Option (List Byte)
  | key :: value :: _ => if key = name then some value else none
  | _ => none

/-- The value that a line gives to `name`; a comment gives none. -/
def lineValue (name l : List Byte) : Option (List Byte) :=
  if isComment (trim isBlank l) then none else keyValue name (words isSpace l)

/-- The value of the first line that gives one. -/
def fileValue (name file : List Byte) : Option (List Byte) :=
  (lines file).findSome? (lineValue name)

/-! ## What the code looks for -/

/-- The line is no comment, and its text begins with the name. -/
def begins (name l : List Byte) : Bool :=
  !isComment (trim isBlank l) && decide (name <+: trim isBlank l)

/-- The first line that begins with the name. -/
def firstBegin (name file : List Byte) : Option (List Byte) :=
  (lines file).find? (begins name)

/-- The second word of a line. -/
def secondWord (l : List Byte) : Option (List Byte) :=
  (words isSpace l)[1]?

theorem hit_eq (name l : List Byte) :
    hit name l = (Option.guard (begins name) l).map secondWord := by
  have hwords : words isSpace (trim isBlank l) = words isSpace l := by
    refine words_trim (fun c hc => ?_) l
    have hcases : ((c = 0x20 ∨ c = 0x09) ∨ c = 0x0d) ∨ c = 0x0a := by simpa [isBlank] using hc
    rcases hcases with ((rfl | rfl) | rfl) | rfl <;> rfl
  unfold hit begins
  by_cases hc : isComment (trim isBlank l) = true
  · simp [hc]
  · by_cases hp : name <+: trim isBlank l <;> simp [hc, hp, hwords, secondWord]

/-- Nothing begins with a name that is not empty. -/
theorem begins_of_trim_eq_nil {name l : List Byte} (hname : name ≠ [])
    (hl : trim isBlank l = []) : begins name l = false := by
  have hpre : ¬ name <+: [] := fun hp => hname (List.prefix_nil.1 hp)
  simp [begins, hl, hpre]

theorem begins_nil {name : List Byte} (hname : name ≠ []) : begins name [] = false :=
  begins_of_trim_eq_nil hname rfl

/-- A newline behind a line is one more blank. -/
theorem hit_append_newline (name l : List Byte) : hit name (l ++ [newline]) = hit name l := by
  have htrim : trim isBlank (l ++ [newline]) = trim isBlank l := by
    have h := trim_append_blank (p := isBlank) (l := []) (s := l) (t := [newline]) (by simp)
      (by simp [isBlank])
    simpa using h
  simp only [hit, htrim]

section Lines

variable {name : List Byte}

/-- On lines that fit the buffer, the pieces are the lines. -/
theorem cfgFind_lines (hname : name ≠ []) {file : List Byte} (hnul : (0 : Byte) ∉ file)
    (hshort : ∀ l ∈ lines file, l.length < maxLineLegth - 1) :
    cfgFind name (cfgPieces file) = (lines file).findSome? (hit name) := by
  induction file using line_induction with
  | last l hl =>
      rw [lines_last hl] at hshort ⊢
      by_cases hnil : l = []
      · -- The empty end of a file is no piece, and no hit.
        subst hnil
        simp [cfgFind, hit_eq, begins_nil hname, Option.guard]
      · have hlen : l.length ≤ maxLineLegth - 2 + 1 := by
          have h := hshort l List.mem_cons_self
          omega
        rw [cfgPieces, pieces_last hl hnil hlen]
        simp [cfgFind, cstr_eq_self hnul]
  | line l s hl ih =>
      have hnuls : (0 : Byte) ∉ s := fun h => hnul (by simp [h])
      have hnull : (0 : Byte) ∉ l := fun h => hnul (List.mem_append_left _ h)
      rw [lines_cons hl] at hshort ⊢
      have hlen : l.length ≤ maxLineLegth - 2 := by
        have h := hshort l List.mem_cons_self
        omega
      have hrest := ih hnuls fun m hm => hshort m (List.mem_cons_of_mem l hm)
      rw [cfgPieces, pieces_line hl hlen, cfgFind, List.findSome?_cons, List.findSome?_cons,
        cstr_line hnull, hit_append_newline]
      rw [cfgFind, cfgPieces] at hrest
      rw [hrest]

theorem findSome?_hit (name : List Byte) (ls : List (List Byte)) :
    ls.findSome? (hit name) = (ls.find? (begins name)).map secondWord := by
  have hfun : hit name = Option.map secondWord ∘ Option.guard (begins name) :=
    funext (hit_eq name)
  rw [hfun, ← List.map_findSome?, List.findSome?_guard]

/-- `get_cfg_value` takes the second word of the first line that begins with the name. -/
theorem getCfgValue_lines (hname : name ≠ []) (hclean : (0 : Byte) ∉ name) (z : List Byte)
    {file : List Byte} (hnul : (0 : Byte) ∉ file)
    (hshort : ∀ l ∈ lines file, l.length < maxLineLegth - 1) :
    getCfgValue (some file) (name ++ 0 :: z) =
      some (cfgAnswer ((firstBegin name file).map secondWord)) := by
  rw [getCfgValue_spec hname hclean, cfgFind_lines hname hnul hshort, findSome?_hit, firstBegin]

end Lines

/-! ## The lookup of a key -/

/-- `get_cfg_value` looks up the key `name` in `file`; `z` is what stands behind the name in
memory. -/
structure FindsKey (name z file : List Byte) : Prop where
  /-- It succeeds when a line has the key and a value. -/
  found : (∃ value, getCfgValue (some file) (name ++ 0 :: z) = some (eOk, value)) ↔
    ∃ l ∈ lines file, (lineValue name l).isSome
  /-- It stores the value of the first such line. -/
  value : ∀ value, getCfgValue (some file) (name ++ 0 :: z) = some (eOk, value) →
    value = fileValue name file
  /-- The line that makes it succeed, where the lines before it do not, is such a line. -/
  produced : ∀ pre l post, lines file = pre ++ l :: post →
    getCfgValue (some (ofLines pre)) (name ++ 0 :: z) = some (eFail, none) →
    (∃ value, getCfgValue (some (ofLines (pre ++ [l]))) (name ++ 0 :: z) = some (eOk, value)) →
    (lineValue name l).isSome

section FindsKey

variable {name : List Byte}

theorem of_keyValue {ws : List (List Byte)} {v : List Byte} (h : keyValue name ws = some v) :
    ws[1]? = some v := by
  rcases ws with _ | ⟨key, _ | ⟨value, ws⟩⟩
  · cases h
  · cases h
  · by_cases hkey : key = name
    · simpa [keyValue, hkey] using h
    · simp [keyValue, hkey] at h

theorem secondWord_of_lineValue {l v : List Byte} (h : lineValue name l = some v) :
    secondWord l = some v := by
  by_cases hc : isComment (trim isBlank l) = true
  · simp [lineValue, hc] at h
  · rw [lineValue, if_neg hc] at h
    exact of_keyValue h

/-- The lookup in a file made of lines. -/
theorem getCfgValue_ofLines (hname : name ≠ []) (hclean : (0 : Byte) ∉ name) (z : List Byte)
    {ls : List (List Byte)} (hline : ∀ l ∈ ls, newline ∉ l) (hnul : ∀ l ∈ ls, (0 : Byte) ∉ l)
    (hshort : ∀ l ∈ ls, l.length < maxLineLegth - 1) :
    getCfgValue (some (ofLines ls)) (name ++ 0 :: z) =
      some (cfgAnswer ((ls.find? (begins name)).map secondWord)) := by
  have hnul' : (0 : Byte) ∉ ofLines ls := by
    intro h
    rcases List.mem_flatMap.1 h with ⟨l, hl, hmem⟩
    rcases List.mem_append.1 hmem with hmem | hmem
    · exact hnul l hl hmem
    · exact absurd (List.mem_singleton.1 hmem) (by decide)
  have hshort' : ∀ l ∈ lines (ofLines ls), l.length < maxLineLegth - 1 := by
    intro l hl
    rw [lines_ofLines hline] at hl
    rcases List.mem_append.1 hl with hl | hl
    · exact hshort l hl
    · rw [List.mem_singleton.1 hl]
      decide
  rw [getCfgValue_lines hname hclean z hnul' hshort', firstBegin, lines_ofLines hline,
    List.find?_append]
  simp [begins_nil hname]

variable {z file : List Byte}

theorem eOk_of_answer {o : Option (Option (List Byte))} {value : Option (List Byte)}
    (h : some (cfgAnswer o) = some (eOk, value)) : o = some value := by
  rcases o with _ | v
  · have hret : eFail = eOk := congrArg Prod.fst (Option.some.inj h)
    exact absurd hret (by decide)
  · exact congrArg some (congrArg Prod.snd (Option.some.inj h))

theorem eFail_of_answer {o : Option (Option (List Byte))}
    (h : some (cfgAnswer o) = some (eFail, none)) : o = none := by
  rcases o with _ | v
  · rfl
  · have hret : eOk = eFail := congrArg Prod.fst (Option.some.inj h)
    exact absurd hret (by decide)

/-- The lines of a file up to one of them are lines that fit, too. -/
theorem getCfgValue_part (hname : name ≠ []) (hclean : (0 : Byte) ∉ name)
    (hnul : (0 : Byte) ∉ file) (hshort : ∀ l ∈ lines file, l.length < maxLineLegth - 1)
    {ls : List (List Byte)} (hls : ls ⊆ lines file) :
    getCfgValue (some (ofLines ls)) (name ++ 0 :: z) =
      some (cfgAnswer ((ls.find? (begins name)).map secondWord)) :=
  getCfgValue_ofLines hname hclean z (fun _ hl => newline_not_mem_of_mem_lines (hls hl))
    (fun _ hl hmem => hnul (mem_of_mem_lines (hls hl) hmem)) fun l hl => hshort l (hls hl)

/-- A line makes the lookup succeed, where the lines before it do not, when it is the first that
begins with the name. -/
theorem produced_iff (hname : name ≠ []) (hclean : (0 : Byte) ∉ name)
    (hnul : (0 : Byte) ∉ file) (hshort : ∀ l ∈ lines file, l.length < maxLineLegth - 1)
    {pre post : List (List Byte)} {l : List Byte} (hsplit : lines file = pre ++ l :: post) :
    (getCfgValue (some (ofLines pre)) (name ++ 0 :: z) = some (eFail, none) ∧
        ∃ value, getCfgValue (some (ofLines (pre ++ [l]))) (name ++ 0 :: z) = some (eOk, value)) ↔
      begins name l = true ∧ ∀ m ∈ pre, (!begins name m) = true := by
  have hsub : pre ++ [l] ⊆ lines file := List.IsPrefix.subset ⟨post, by simp [hsplit]⟩
  rw [getCfgValue_part hname hclean hnul hshort fun m hm => hsub (List.mem_append_left [l] hm),
    getCfgValue_part hname hclean hnul hshort hsub]
  have hnone : pre.find? (begins name) = none ↔ ∀ m ∈ pre, (!begins name m) = true := by
    simp [List.find?_eq_none]
  rw [← hnone]
  constructor
  · rintro ⟨hfail, value, hok⟩
    have hpre : pre.find? (begins name) = none := Option.map_eq_none_iff.1 (eFail_of_answer hfail)
    rcases Option.map_eq_some_iff.1 (eOk_of_answer hok) with ⟨m, hm, -⟩
    rw [List.find?_append, hpre, Option.none_or] at hm
    have hml : m = l := by simpa using List.mem_of_find?_eq_some hm
    exact ⟨hml ▸ List.find?_some hm, hpre⟩
  · rintro ⟨hbegin, hpre⟩
    have hfirst : (pre ++ [l]).find? (begins name) = some l := by
      rw [List.find?_append, hpre]
      simp [hbegin]
    rw [hpre, hfirst]
    exact ⟨rfl, _, rfl⟩

/-- A lookup of the key stops at no line but one with the key and a value. -/
theorem firstBegin_of_findsKey (hname : name ≠ []) (hclean : (0 : Byte) ∉ name)
    (hnul : (0 : Byte) ∉ file) (hshort : ∀ l ∈ lines file, l.length < maxLineLegth - 1)
    (h : FindsKey name z file) :
    (firstBegin name file = none → fileValue name file = none) ∧
      ∀ l, firstBegin name file = some l →
        lineValue name l ≠ none ∧ lineValue name l = fileValue name file := by
  have hrun := getCfgValue_lines hname hclean z hnul hshort
  constructor
  · intro hnone
    rw [hnone] at hrun
    rw [fileValue, List.findSome?_eq_none_iff]
    intro l hl
    by_contra hsome
    -- With a line that has the value, the code would succeed.
    rcases h.found.2 ⟨l, hl, Option.isSome_iff_ne_none.2 hsome⟩ with ⟨value, hok⟩
    rw [hrun] at hok
    exact absurd (eOk_of_answer hok) (by simp)
  · intro l hl
    rw [hl] at hrun
    rcases List.find?_eq_some_iff_append.1 hl with ⟨hbegin, pre, post, hsplit, hpre⟩
    -- The lines before `l` fail, and `l` itself succeeds.
    rcases (produced_iff hname hclean hnul hshort hsplit).2 ⟨hbegin, hpre⟩ with ⟨hfail, hok⟩
    have hsome := h.produced pre l post hsplit hfail hok
    rcases Option.isSome_iff_exists.1 hsome with ⟨v, hv⟩
    refine ⟨by simp [hv], ?_⟩
    calc
      lineValue name l = some v := hv
      _ = secondWord l := (secondWord_of_lineValue hv).symm
      _ = fileValue name file := h.value _ hrun

/-- A key that only begins with the name is taken for it, though nothing in the file gives the name
a value. -/
theorem longer_key_is_taken :
    ¬ ∀ name z file : List Byte, name ≠ [] → (0 : Byte) ∉ name → (∀ c ∈ name, isSpace c = false) →
      isComment name = false → (0 : Byte) ∉ file →
      (∀ l ∈ lines file, l.length < maxLineLegth - 1) → FindsKey name z file := by
  intro h
  have hword : ∀ c ∈ ascii "WATER_IP", isSpace c = false := by
    have hall : (ascii "WATER_IP").all (fun c => !isSpace c) = true := by decide
    intro c hc
    simpa using List.all_eq_true.1 hall c hc
  -- The key is `WATER_IP`, and the file has a line for `WATER_IP_OLD`.
  have hfinds := h (ascii "WATER_IP") [] (ascii "WATER_IP_OLD 10.0.0.1\n") (by decide) (by decide)
    hword (by decide) (by decide) (by decide)
  have hstop := (firstBegin_of_findsKey (by decide) (by decide) (by decide) (by decide) hfinds).2
    (ascii "WATER_IP_OLD 10.0.0.1") (by decide)
  exact hstop.1 (by decide)

/-- `get_cfg_value` looks up its key exactly when the first line that begins with the name has the
whole name as its key and carries the value that the file gives to the name; without such a line no
line may give it one. -/
theorem findsKey_iff (hname : name ≠ []) (hclean : (0 : Byte) ∉ name) (hnul : (0 : Byte) ∉ file)
    (hshort : ∀ l ∈ lines file, l.length < maxLineLegth - 1) :
    FindsKey name z file ↔
      (firstBegin name file = none → fileValue name file = none) ∧
        ∀ l, firstBegin name file = some l →
          lineValue name l ≠ none ∧ lineValue name l = fileValue name file := by
  constructor
  · exact firstBegin_of_findsKey hname hclean hnul hshort
  · rintro ⟨hnone, hsome⟩
    have hrun := getCfgValue_lines hname hclean z hnul hshort
    have hfound : (∃ l ∈ lines file, (lineValue name l).isSome) ↔
        (fileValue name file).isSome := by
      rw [fileValue, List.findSome?_isSome_iff]
    refine ⟨?_, ?_, ?_⟩
    · rw [hfound, hrun]
      cases hfirst : firstBegin name file with
      | none =>
          rw [hnone hfirst]
          simp [cfgAnswer, eOk, eFail]
      | some l =>
          rcases hsome l hfirst with ⟨hne, heq⟩
          rw [← heq]
          simp [cfgAnswer, Option.isSome_iff_ne_none, hne]
    · intro value hok
      rw [hrun] at hok
      have hanswer := eOk_of_answer hok
      rcases Option.map_eq_some_iff.1 hanswer with ⟨l, hfirst, hword⟩
      rcases hsome l hfirst with ⟨hne, heq⟩
      rcases Option.ne_none_iff_exists'.1 hne with ⟨v, hv⟩
      rw [← heq, hv, ← hword, secondWord_of_lineValue hv]
    · intro pre l post hsplit hfail hok
      have hfirst := (produced_iff hname hclean hnul hshort hsplit).1 ⟨hfail, hok⟩
      have hline : firstBegin name file = some l :=
        List.find?_eq_some_iff_append.2 ⟨hfirst.1, pre, post, hsplit, hfirst.2⟩
      exact Option.isSome_iff_ne_none.2 (hsome l hline).1

end FindsKey

/-- In a file with one line for the key, behind a comment and another key. -/
theorem findsKey_sample : FindsKey (ascii "WATER_IP") []
    (ascii "#WATER_IP 1\nWATER_PORT 15001\nWATER_IP\t10.0.0.1 \n") := by
  refine (findsKey_iff (by decide) (by decide) (by decide) (by decide)).2 ⟨by decide, ?_⟩
  intro l hl
  have hline : l = ascii "WATER_IP\t10.0.0.1 " := Option.some.inj (hl.symm.trans (by decide))
  subst hline
  exact ⟨by decide, by decide⟩

end Config
end CommServer
