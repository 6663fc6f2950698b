import CommServer.CLib.Stdio
import CommServer.LibSrc.BaseSpec

/-!
# Config — `get_cfg_value` of `libsrc/base.c`

The lookup of one key in a configuration file, piece by piece as `fgets` delivers it:

* `getCfgValue`      : the function, with the string it stores through `value`;
* `hit`              : what the loop does with one piece, in terms of the trimmed text;
* `getCfgValue_spec` : the whole lookup is the first hit among the pieces.

A piece is a hit when it is no comment and begins with the name.  Nothing says that the name ends
there, and nothing is done about a piece without a second word.
-/

namespace CommServer

open CLib Text

/-! ## The function -/

/-- `buf[0]` is `#`, `/`, `*` or a newline. -/
def skipMark (c : Byte) : Bool :=
  c = 0x23 || c = 0x2f || c = 0x2a || c = newline

/-- The loop of `get_cfg_value` over what is left of the file: the return value, and the string
stored to `value` if there is one. -/
def cfgLoop (name : List Byte) (buf tmpName : Buf maxLineLegth) (stream : List Byte) :
    Option (Int × Option (List Byte)) :=
  match stream with
  -- `fgets` returns `NULL`.
  | [] => some (eFail, none)
  | c :: rest => do
      let buf ← fgets buf (c :: rest)
      let buf ← bclRtrim buf
      let buf ← bclLtrim buf
      let first ← buf.bytes.head?
      let len ← strlen buf.bytes
      let next := (c :: rest).drop (fgetsPiece maxLineLegth (c :: rest)).length
      if skipMark first || len = 0 then
        cfgLoop name buf tmpName next
      else
        let n ← strlen name
        let cmp ← strncmp buf.bytes name n
        if cmp = 0 then
          -- How many words `sscanf` finds is not asked.
          let (_, value) ← sscanf2 buf.str tmpName
          some (eOk, value)
        else
          cfgLoop name (Buf.zeroed maxLineLegth) (Buf.zeroed maxLineLegth) next
termination_by stream.length
decreasing_by
  all_goals
    have hpos : 0 < (fgetsPiece maxLineLegth (c :: rest)).length :=
      length_takeLine_pos (maxLineLegth - 2) c rest
    simp only [List.length_drop, List.length_cons]
    omega

/-- `get_cfg_value(filepath, name, value)`, where `file` is the content of a file that `fopen` can
open.  Neither `filepath` nor `name` is a null pointer here. -/
def getCfgValue (file : Option (List Byte)) (name : List Byte) :
    Option (Int × Option (List Byte)) :=
  match file with
  | none => some (eFail, none)
  | some stream =>
      cfgLoop name (Buf.zeroed maxLineLegth) (Buf.zeroed maxLineLegth) stream

/-! ## One piece -/

/-- The text begins with a comment mark. -/
def isComment : List Byte → Bool
  | [] => false
  | c :: _ => c = 0x23 || c = 0x2f || c = 0x2a

/-- The piece `s` is taken for a line with the key `name`; then its second word is the value. -/
def hit (name s : List Byte) : Option (Option (List Byte)) :=
  let t := trim isBlank s
  if isComment t then none
  else if name <+: t then some (words isSpace t)[1]?
  else none

/-- What `get_cfg_value` makes of its hit. -/
def cfgAnswer : Option (Option (List Byte)) → Int × Option (List Byte)
  | none => (eFail, none)
  | some value => (eOk, value)

/-- The pieces in which `get_cfg_value` reads a file. -/
abbrev cfgPieces (file : List Byte) : List (List Byte) :=
  pieces (maxLineLegth - 2) file

/-- The first hit among the strings that the pieces leave in `buf`. -/
def cfgFind (name : List Byte) (ps : List (List Byte)) : Option (Option (List Byte)) :=
  ps.findSome? fun p => hit name (cstr p)

/-! ## The specification -/

section Spec

variable {name z : List Byte}

/-- The first byte of a terminated array is the first of its string, or the terminator. -/
theorem head_of_str {b : Buf maxLineLegth} (h : (0 : Byte) ∈ b.bytes) :
    b.bytes.head? = some (b.str.headD 0) := by
  rcases eq_cstr_append_zero h with ⟨rest, hrest⟩
  rw [hrest]
  cases hstr : b.str with
  | nil =>
      have hnil : cstr b.bytes = [] := hstr
      simp [hnil]
  | cons c t =>
      have hcons : cstr b.bytes = c :: t := hstr
      simp [hcons]

/-- A trimmed text is skipped when it is empty or a comment: it does not begin with a newline. -/
theorem skipMark_trim (s : List Byte) :
    (skipMark ((trim isBlank s).headD 0) = true ∨ trim isBlank s = []) ↔
      (isComment (trim isBlank s) = true ∨ trim isBlank s = []) := by
  cases hts : trim isBlank s with
  | nil => simp
  | cons c t =>
      have hblank : ¬ isBlank c := not_of_trim_eq_cons hts
      have hnewline : c ≠ newline := by
        rintro rfl
        exact hblank rfl
      simp [skipMark, isComment, hnewline]

theorem hit_of_skip {s : List Byte} (hname : name ≠ [])
    (h : isComment (trim isBlank s) = true ∨ trim isBlank s = []) : hit name s = none := by
  rcases h with h | h
  · simp [hit, h]
  · have hpre : ¬ name <+: [] := fun hp => hname (List.prefix_nil.1 hp)
    simp [hit, h, isComment, hpre]

/-- One round of the loop: a hit ends it, and anything else leads to the next piece. -/
theorem cfgLoop_cons (hname : name ≠ []) (hclean : (0 : Byte) ∉ name) (buf tmpName : Buf maxLineLegth)
    (c : Byte) (rest : List Byte) :
    (∃ value, hit name (cstr (fgetsPiece maxLineLegth (c :: rest))) = some value ∧
        cfgLoop (name ++ 0 :: z) buf tmpName (c :: rest) = some (eOk, value)) ∨
      (hit name (cstr (fgetsPiece maxLineLegth (c :: rest))) = none ∧
        ∃ buf' tmpName', cfgLoop (name ++ 0 :: z) buf tmpName (c :: rest) =
          cfgLoop (name ++ 0 :: z) buf' tmpName'
            ((c :: rest).drop (fgetsPiece maxLineLegth (c :: rest)).length)) := by
  have hpos : 0 < maxLineLegth := by decide
  rcases fgets_spec hpos buf (c :: rest) with ⟨b₀, hget, hterm, hstr⟩
  rcases trims_back_spec b₀ hterm with ⟨b₁, b, hrtrim, hltrim, hmem, htext⟩
  rw [hstr] at htext
  have hlen := strlen_of_mem hmem
  have hfirst := head_of_str hmem
  have hname' := strlen_append_zero hclean z
  have hskip := skipMark_trim (cstr (fgetsPiece maxLineLegth (c :: rest)))
  rw [← htext] at hskip
  rw [cfgLoop]
  simp only [hget, hrtrim, hltrim, hfirst, hlen, Option.bind_eq_bind, Option.bind_some]
  have hcstr : (cstr b.bytes).length = 0 ↔ b.str = [] := List.length_eq_zero_iff
  by_cases hover : isComment b.str = true ∨ b.str = []
  · -- A comment, or nothing.
    right
    refine ⟨hit_of_skip hname (htext ▸ hover), b, tmpName, ?_⟩
    rw [if_pos]
    simpa [hcstr] using hskip.2 hover
  · have hgo : ¬ (skipMark (b.str.headD 0) = true ∨ b.str = []) := fun h => hover (hskip.1 h)
    have hcomment : ¬ isComment b.str = true := fun h => hover (.inl h)
    rcases eq_cstr_append_zero hmem with ⟨rest', hrest⟩
    rcases strncmp_word hclean b.zero_not_mem_str rest' z with ⟨cmp, hcmp, hiff⟩
    have hbytes : b.str ++ 0 :: rest' = b.bytes := hrest.symm
    rw [hbytes] at hcmp
    rw [if_neg (by simpa [hcstr] using hgo), hname']
    simp only [hcmp, Option.bind_some]
    by_cases hpre : name <+: b.str
    · -- The name stands at the front, and the words are scanned.
      left
      rcases sscanf2_spec tmpName (Buf.length_str_lt hmem) with ⟨tmp, hscan⟩
      refine ⟨(words isSpace b.str)[1]?, ?_, ?_⟩
      · simp [hit, ← htext, hcomment, hpre]
      · simp [hiff.2 hpre, hscan]
    · right
      refine ⟨?_, Buf.zeroed maxLineLegth, Buf.zeroed maxLineLegth, ?_⟩
      · simp [hit, ← htext, hcomment, hpre]
      · rw [if_neg fun h => hpre (hiff.1 h)]

theorem cfgLoop_spec (hname : name ≠ []) (hclean : (0 : Byte) ∉ name)
    (buf tmpName : Buf maxLineLegth) (stream : List Byte) :
    cfgLoop (name ++ 0 :: z) buf tmpName stream =
      some (cfgAnswer (cfgFind name (cfgPieces stream))) := by
  -- On what is left of the file.
  induction hm : stream.length using Nat.strongRecOn generalizing buf tmpName stream with
  | _ m ih =>
      cases stream with
      | nil =>
          rw [cfgLoop, cfgPieces, pieces_nil]
          rfl
      | cons c rest =>
          have hpieces : cfgPieces (c :: rest) = fgetsPiece maxLineLegth (c :: rest) ::
              cfgPieces ((c :: rest).drop (fgetsPiece maxLineLegth (c :: rest)).length) := by
            rw [cfgPieces, pieces]
            rfl
          have hpos : 0 < (fgetsPiece maxLineLegth (c :: rest)).length :=
            length_takeLine_pos (maxLineLegth - 2) c rest
          have hshort : ((c :: rest).drop (fgetsPiece maxLineLegth (c :: rest)).length).length <
              m := by
            simp only [List.length_drop, List.length_cons] at hm ⊢
            omega
          rcases cfgLoop_cons (z := z) hname hclean buf tmpName c rest with
            ⟨value, hhit, hrun⟩ | ⟨hmiss, buf', tmpName', hrun⟩
          · rw [hrun, hpieces, cfgFind, List.findSome?_cons, hhit]
            rfl
          · rw [hrun, ih _ hshort buf' tmpName' _ rfl, hpieces]
            simp only [cfgFind, List.findSome?_cons, hmiss]

/-- `get_cfg_value` answers with its first hit. -/
theorem getCfgValue_spec (hname : name ≠ []) (hclean : (0 : Byte) ∉ name) (file : List Byte) :
    getCfgValue (some file) (name ++ 0 :: z) =
      some (cfgAnswer (cfgFind name (cfgPieces file))) :=
  cfgLoop_spec hname hclean _ _ file

end Spec

end CommServer
