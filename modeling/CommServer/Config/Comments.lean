import CommServer.Config.Lookup
import CommServer.Src.CommSvrCfg

/-!
# Comments — which lines are without effect on the configuration

A line is ignored when no file, with or without it, is loaded differently.  `ignored_iff` says which
lines are: those of which no piece, as `fgets` cuts them, begins with a key.

* `blank_ignored`         : a blank line is, however long;
* `short_comment_ignored` : so is a comment that comes in one piece;
* `long_comment_is_read`  : the second piece of a longer comment is no comment any more.
-/

namespace CommServer
namespace Config

open CLib Text

/-- Inserted into a file of NUL-free lines, at its start or between two of them, the line `c` leaves
what `get_comm_svr_cfg` returns and stores as it is. -/
def Ignored (c : List Byte) : Prop :=
  ∀ pre post : List (List Byte), (∀ l ∈ pre ++ post, newline ∉ l ∧ (0 : Byte) ∉ l) →
    (pre = [] ∨ post ≠ []) → ∀ p,
      getCommSvrCfg (some (ofLines (pre ++ c :: post))) p =
        getCommSvrCfg (some (ofLines (pre ++ post))) p

/-! ## Lookups line by line -/

section Lookups

variable {key : List Byte}

theorem hit_eq_none_iff {name l : List Byte} : hit name l = none ↔ begins name l = false := by
  rw [hit_eq, Option.map_eq_none_iff]
  simp [Option.guard]

/-- A piece never reaches over the end of a line, so the lookup goes through one line after the
other. -/
theorem cfgFind_cons (c s : List Byte) :
    cfgFind key (cfgPieces (c ++ newline :: s)) =
      (cfgFind key (cfgPieces (c ++ [newline]))).or (cfgFind key (cfgPieces s)) := by
  rw [cfgFind, cfgPieces, pieces_append, List.findSome?_append]
  rfl

theorem cfgText_cons (c s : List Byte) :
    cfgText key (c ++ newline :: s) = (cfgText key (c ++ [newline])).or (cfgText key s) := by
  rw [cfgText, cfgFind_cons, Option.map_or]
  rfl

/-- The value that is read from a file of lines that fit the buffer. -/
theorem cfgText_lines (hkey : key ≠ []) {file : List Byte} (hnul : (0 : Byte) ∉ file)
    (hshort : ∀ l ∈ lines file, l.length < maxLineLegth - 1) :
    cfgText key file = ((lines file).findSome? (hit key)).map (·.getD []) := by
  rw [cfgText, cfgFind_lines hkey hnul hshort]

theorem cfgFind_eq_none_iff {ps : List (List Byte)} :
    cfgFind key ps = none ↔ ∀ piece ∈ ps, begins key (cstr piece) = false := by
  rw [cfgFind, List.findSome?_eq_none_iff]
  exact forall₂_congr fun _ _ => hit_eq_none_iff

theorem cfgFind_ofLines_append (ls : List (List Byte)) (s : List Byte) :
    cfgFind key (cfgPieces (ofLines ls ++ s)) =
      (cfgFind key (cfgPieces (ofLines ls))).or (cfgFind key (cfgPieces s)) := by
  induction ls with
  | nil => simp [cfgFind]
  | cons l ls ih =>
      rw [ofLines_cons, List.append_assoc, List.cons_append, cfgFind_cons, ih, ← Option.or_assoc,
        ← cfgFind_cons]

end Lookups

/-! ## Files with a digit for every key -/

/-- A line for every key, with the value `2` for `key` and `1` for the others. -/
def digitLines (key : List Byte) : List (List Byte) :=
  cfgFields.map fun field => field.key ++ [0x20, if field.key = key then 0x32 else 0x31]

/-- `digitLines` with no `2`, or with one. -/
def digitKeys : List (List Byte) :=
  [] :: cfgFields.map (·.key)

theorem cfgText_digitLines : ∀ key ∈ digitKeys, ∀ field ∈ cfgFields,
    cfgText field.key (ofLines (digitLines key)) =
      some [if field.key = key then 0x32 else 0x31] := by
  have hclean : ∀ key ∈ digitKeys,
      (0 : Byte) ∉ ofLines (digitLines key) ∧
        ∀ l ∈ lines (ofLines (digitLines key)), l.length < maxLineLegth - 1 := by decide
  have hfind : ∀ key ∈ digitKeys, ∀ field ∈ cfgFields,
      (lines (ofLines (digitLines key))).findSome? (hit field.key) =
        some (some [if field.key = key then 0x32 else 0x31]) := by decide
  intro key hkey field hfield
  rw [cfgText_lines (key_ne_nil field hfield) (hclean key hkey).1 (hclean key hkey).2,
    hfind key hkey field hfield]
  rfl

theorem getCommSvrCfg_digitLines {key : List Byte} (hkey : key ∈ digitKeys) (p : CommSvrSocket) :
    getCommSvrCfg (some (ofLines (digitLines key))) p =
      some (eOk, cfgFields.foldl
        (fun svr field => field.fill [if field.key = key then 0x32 else 0x31] svr)
        CommSvrSocket.zeroed) := by
  have hfits : ∀ c : Byte, CfgFits [c] := fun _ => show 1 < 256 by decide
  rw [getCommSvrCfg_spec]
  exact loadFields_of_texts (fun k => [if k = key then 0x32 else 0x31])
    (fun field hfield => ⟨cfgText_digitLines key hkey field hfield, hfits _⟩) _

theorem mem_digitKeys {field : CfgField} (hfield : field ∈ cfgFields) : field.key ∈ digitKeys :=
  List.mem_cons_of_mem _ (List.mem_map.2 ⟨field, hfield, rfl⟩)

theorem nil_mem_digitKeys : [] ∈ digitKeys :=
  List.mem_cons_self

/-- With another value for one key, another record is loaded. -/
theorem digitLines_differ {field : CfgField} (hfield : field ∈ cfgFields) (p : CommSvrSocket) :
    getCommSvrCfg (some (ofLines (digitLines field.key))) p ≠
      getCommSvrCfg (some (ofLines (digitLines []))) p := by
  have hdiff : ∀ f ∈ cfgFields,
      cfgFields.foldl (fun svr g => g.fill [if g.key = f.key then 0x32 else 0x31] svr)
        CommSvrSocket.zeroed ≠
      cfgFields.foldl (fun svr g => g.fill [if g.key = [] then 0x32 else 0x31] svr)
        CommSvrSocket.zeroed := by decide
  rw [getCommSvrCfg_digitLines (mem_digitKeys hfield), getCommSvrCfg_digitLines nil_mem_digitKeys]
  intro heq
  exact hdiff field hfield (congrArg Prod.snd (Option.some.inj heq))

/-! ## The lines that are ignored -/

/-- A piece that begins with a key shows in some file. -/
theorem not_begins_of_ignored {c : List Byte} (h : Ignored c) :
    ∀ piece ∈ cfgPieces (c ++ [newline]), ∀ field ∈ cfgFields,
      begins field.key (cstr piece) = false := by
  intro piece hpiece field hfield
  by_contra hbegin
  -- With `c` in front, the value that the file has for this key is not read.
  have hfound : cfgFind field.key (cfgPieces (c ++ [newline])) ≠ none := fun hnone =>
    hbegin (cfgFind_eq_none_iff.1 hnone piece hpiece)
  have hmem := mem_digitKeys hfield
  have hclean : ∀ key ∈ digitKeys, ∀ l ∈ digitLines key, newline ∉ l ∧ (0 : Byte) ∉ l := by
    decide
  have hsame : ∀ key ∈ digitKeys, ∀ p,
      getCommSvrCfg (some (c ++ newline :: ofLines (digitLines key))) p =
        getCommSvrCfg (some (ofLines (digitLines key))) p := by
    intro key hkey p
    have hins := h [] (digitLines key) (hclean key hkey) (.inl rfl) p
    rwa [List.nil_append, List.nil_append, ofLines_cons] at hins
  have hhidden : ∀ p, getCommSvrCfg (some (c ++ newline :: ofLines (digitLines field.key))) p =
      getCommSvrCfg (some (c ++ newline :: ofLines (digitLines []))) p := by
    intro p
    rw [getCommSvrCfg_spec, getCommSvrCfg_spec]
    refine loadFields_congr (fun f hf => ?_) _
    rw [cfgText_cons c (ofLines (digitLines field.key)), cfgText_cons c (ofLines (digitLines []))]
    by_cases hkey : f.key = field.key
    · -- The piece hides the line of the file.
      have hfound' : cfgFind f.key (cfgPieces (c ++ [newline])) ≠ none := hkey ▸ hfound
      rcases Option.ne_none_iff_exists'.1 hfound' with ⟨o, ho⟩
      simp [cfgText, ho]
    · rw [cfgText_digitLines field.key hmem f hf, cfgText_digitLines [] nil_mem_digitKeys f hf,
        if_neg hkey, if_neg (key_ne_nil f hf)]
  refine digitLines_differ hfield CommSvrSocket.zeroed ?_
  rw [← hsame _ hmem, ← hsame [] nil_mem_digitKeys, hhidden]

/-- A line without such a piece adds nothing to any lookup. -/
theorem ignored_of_not_begins {c : List Byte}
    (h : ∀ piece ∈ cfgPieces (c ++ [newline]), ∀ field ∈ cfgFields,
      begins field.key (cstr piece) = false) : Ignored c := by
  intro pre post _ _ p
  rw [getCommSvrCfg_spec, getCommSvrCfg_spec]
  refine loadFields_congr (fun field hfield => ?_) _
  have hnone : cfgFind field.key (cfgPieces (c ++ [newline])) = none :=
    cfgFind_eq_none_iff.2 fun piece hpiece => h piece hpiece field hfield
  rw [cfgText, cfgText, ofLines_append, ofLines_cons, ofLines_append, cfgFind_ofLines_append,
    cfgFind_cons, hnone, Option.none_or, ← cfgFind_ofLines_append]

/-- Blanks are skipped piece by piece. -/
theorem blank_ignored {c : List Byte} (h : ∀ a ∈ c, isBlank a) : Ignored c := by
  refine ignored_of_not_begins fun piece hpiece field hfield => ?_
  have hblank : ∀ a ∈ cstr piece, isBlank a := by
    intro a ha
    have hpre := cstr_prefix piece
    rcases List.mem_append.1 (mem_of_mem_pieces hpiece (hpre.subset ha)) with ha | ha
    · exact h a ha
    · rw [List.mem_singleton.1 ha]
      rfl
  exact begins_of_trim_eq_nil (key_ne_nil field hfield) (trim_eq_nil_iff.2 hblank)

/-- A comment of one piece is skipped as a whole. -/
theorem short_comment_ignored {c : List Byte} (hline : newline ∉ c) (hnul : (0 : Byte) ∉ c)
    (hshort : c.length < maxLineLegth - 1) (h : isComment (trim isBlank c) = true) : Ignored c := by
  refine ignored_of_not_begins fun piece hpiece field _ => ?_
  have hlen : c.length ≤ maxLineLegth - 2 := by omega
  rw [cfgPieces, pieces_line hline hlen, pieces_nil] at hpiece
  rw [List.mem_singleton.1 hpiece, cstr_line hnul]
  have hnone : hit field.key (c ++ [newline]) = none := by
    rw [hit_append_newline]
    simp [hit, h]
  exact hit_eq_none_iff.1 hnone

/-! ## Lines of more than one piece -/

section Overlong

variable {mark tail : List Byte}

theorem pieces_overlong (hmark : newline ∉ mark) (hlen : mark.length = maxLineLegth - 1)
    (htail : newline ∉ tail) (hshort : tail.length < maxLineLegth - 1) :
    cfgPieces (mark ++ tail ++ [newline]) = [mark, tail ++ [newline]] := by
  have hfull : mark.length = maxLineLegth - 2 + 1 := hlen
  have hfit : tail.length ≤ maxLineLegth - 2 := by omega
  rw [cfgPieces, List.append_assoc, pieces_full hmark hfull, pieces_line htail hfit, pieces_nil]

/-- A comment that fills the first piece leaves the rest of its line to be read as a line. -/
theorem cfgFind_overlong {key : List Byte} (hmark : newline ∉ mark)
    (hlen : mark.length = maxLineLegth - 1) (htail : newline ∉ tail)
    (hshort : tail.length < maxLineLegth - 1) (hclean : (0 : Byte) ∉ mark ++ tail)
    (hcomment : isComment (trim isBlank mark) = true) :
    cfgFind key (cfgPieces (mark ++ tail ++ [newline])) = hit key tail := by
  have hmarkClean : (0 : Byte) ∉ mark := fun h => hclean (List.mem_append_left tail h)
  have htailClean : (0 : Byte) ∉ tail := fun h => hclean (List.mem_append_right mark h)
  have hskip : hit key mark = none := by simp [hit, hcomment]
  rw [pieces_overlong hmark hlen htail hshort, cfgFind, List.findSome?_cons, List.findSome?_cons,
    cstr_eq_self hmarkClean, cstr_line htailClean, hskip, hit_append_newline]
  cases hit key tail <;> rfl

/-- So such a comment is not ignored when the rest begins with a key. -/
theorem not_ignored_append (hmark : newline ∉ mark) (hlen : mark.length = maxLineLegth - 1)
    (htail : newline ∉ tail) (hshort : tail.length < maxLineLegth - 1)
    (hclean : (0 : Byte) ∉ mark ++ tail) (hcomment : isComment (trim isBlank mark) = true)
    {field : CfgField} (hfield : field ∈ cfgFields) (hbegin : begins field.key tail = true) :
    ¬ Ignored (mark ++ tail) := by
  intro h
  have hnone := cfgFind_eq_none_iff.2 fun piece hpiece => not_begins_of_ignored h piece hpiece field
    hfield
  rw [cfgFind_overlong hmark hlen htail hshort hclean hcomment, hit_eq_none_iff, hbegin] at hnone
  exact absurd hnone (by decide)

end Overlong

/-- A comment mark and letters that fill a piece. -/
def fullComment : List Byte :=
  0x23 :: List.replicate (maxLineLegth - 2) 0x78

theorem not_mem_fullComment {a : Byte} (hmark : a ≠ 0x23) (hletter : a ≠ 0x78) :
    a ∉ fullComment := by
  intro hmem
  rcases List.mem_cons.1 hmem with rfl | hmem
  · exact hmark rfl
  · exact hletter (List.eq_of_mem_replicate hmem)

theorem length_fullComment : fullComment.length = maxLineLegth - 1 := by
  rw [fullComment, List.length_cons, List.length_replicate]
  rfl

theorem isComment_fullComment (s : List Byte) :
    isComment (trim isBlank (fullComment ++ s)) = true := by
  have hblank : ¬ isBlank 0x23 := by decide
  rcases trim_cons_of_not hblank (List.replicate (maxLineLegth - 2) 0x78 ++ s) with ⟨r, hr⟩
  rw [fullComment, List.cons_append, hr]
  rfl

/-- A comment whose second piece is `WATER_IP 6.6.6.6`. -/
def longComment : List Byte :=
  fullComment ++ ascii "WATER_IP 6.6.6.6"

/-- Behind its first 4095 bytes a comment is read like any other text: in front of a file with the
address `1` this one gives the address `6.6.6.6`. -/
theorem long_comment_is_read :
    isComment (trim isBlank longComment) = true ∧ newline ∉ longComment ∧
      (0 : Byte) ∉ longComment ∧
      getCommSvrCfg (some (ofLines ([] ++ longComment :: digitLines []))) CommSvrSocket.zeroed ≠
        getCommSvrCfg (some (ofLines ([] ++ digitLines []))) CommSvrSocket.zeroed := by
  have hnewline := not_mem_fullComment (a := newline) (by decide) (by decide)
  have hnul := not_mem_fullComment (a := 0) (by decide) (by decide)
  have htail : newline ∉ ascii "WATER_IP 6.6.6.6" ∧ (0 : Byte) ∉ ascii "WATER_IP 6.6.6.6" := by
    decide
  have hclean : (0 : Byte) ∉ longComment := fun hmem => (List.mem_append.1 hmem).elim hnul htail.2
  have hmark : isComment (trim isBlank fullComment) = true := by
    have h := isComment_fullComment []
    rwa [List.append_nil] at h
  refine ⟨isComment_fullComment _, fun hmem => (List.mem_append.1 hmem).elim hnewline htail.1,
    hclean, ?_⟩
  -- The lookups find the tail of the comment first, and the digits of the file otherwise.
  have hdigits := cfgText_digitLines [] nil_mem_digitKeys
  have htexts : ∀ field ∈ cfgFields,
      ((hit field.key (ascii "WATER_IP 6.6.6.6")).map (·.getD [])).or
          (some [if field.key = [] then 0x32 else 0x31]) =
        some (if field.key = ascii "WATER_IP" then ascii "6.6.6.6" else [0x31]) := by decide
  have hread : ∀ field ∈ cfgFields,
      cfgText field.key (ofLines (longComment :: digitLines [])) =
        some (if field.key = ascii "WATER_IP" then ascii "6.6.6.6" else [0x31]) := by
    intro field hfield
    rw [ofLines_cons, cfgText_cons, hdigits field hfield, cfgText, longComment,
      cfgFind_overlong hnewline length_fullComment htail.1 (by decide) hclean hmark,
      htexts field hfield]
  have hfits : ∀ field ∈ cfgFields,
      CfgFits (if field.key = ascii "WATER_IP" then ascii "6.6.6.6" else [0x31]) := by decide
  have hwith := loadFields_of_texts (p := CommSvrSocket.zeroed)
    (fun k => if k = ascii "WATER_IP" then ascii "6.6.6.6" else [0x31])
    (fun field hfield => ⟨hread field hfield, hfits field hfield⟩) CommSvrSocket.zeroed
  rw [List.nil_append, List.nil_append, getCommSvrCfg_digitLines nil_mem_digitKeys,
    getCommSvrCfg_spec, hwith]
  decide

/-- A line is ignored exactly when none of the pieces in which `fgets` delivers it is a text, other
than a comment, that begins with a key. -/
theorem ignored_iff (c : List Byte) :
    Ignored c ↔ ∀ piece ∈ cfgPieces (c ++ [newline]), ∀ field ∈ cfgFields,
      begins field.key (cstr piece) = false :=
  ⟨not_begins_of_ignored, ignored_of_not_begins⟩

end Config
end CommServer
