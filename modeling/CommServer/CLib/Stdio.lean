import CommServer.CLib.Strings
import CommServer.CLib.Decimal
import CommServer.Text.Words
import CommServer.Text.Fields

/-!
# Stdio — `fgets` and `sscanf("%s %s")`

* `fgets`   : the next piece of a file, up to its newline or as long as the array has room;
* `pieces`  : all the pieces that repeated calls deliver;
* `lines`   : what a reader of the file takes for its lines;
* `sscanf2` : the first two words of a string, the first into an array and the second through a
  pointer of unknown extent.

A line that fits the array is one piece (`pieces_line`); a longer one comes in several, of which only
the last has the newline (`pieces_full`).  Pieces never reach over a newline (`pieces_append`).
-/

namespace CommServer
namespace CLib

open Text

/-- `'\n'`. -/
abbrev newline : Byte := 0x0a

/-! ## `fgets` -/

/-- The bytes up to the first newline, at most `n` of them. -/
def takeLine : Nat → List Byte → List Byte
  | 0, _ => []
  | _ + 1, [] => []
  | n + 1, c :: s => if c = newline then [c] else c :: takeLine n s

/-- What one `fgets(buf, sizeof(buf), fp)` takes of `stream`, for an array of `k` bytes. -/
def fgetsPiece (k : Nat) (stream : List Byte) : List Byte :=
  takeLine (k - 1) stream

/-- `fgets(buf, sizeof(buf), fp)` where `stream` is left of the file: its piece and a terminator. -/
def fgets {k : Nat} (buf : Buf k) (stream : List Byte) : Option (Buf k) :=
  buf.blit 0 (fgetsPiece k stream ++ [0])

/-- The pieces of a file, of at most `n + 1` bytes each. -/
def pieces (n : Nat) (s : List Byte) : List (List Byte) :=
  match s with
  | [] => []
  | c :: s => takeLine (n + 1) (c :: s) :: pieces n ((c :: s).drop (takeLine (n + 1) (c :: s)).length)
termination_by s.length
decreasing_by
  have hpos : 0 < (takeLine (n + 1) (c :: s)).length := by
    simp only [takeLine]
    split <;> simp
  simp only [List.length_drop, List.length_cons]
  omega

section Pieces

variable {n : Nat}

theorem length_takeLine_pos (n : Nat) (c : Byte) (s : List Byte) :
    0 < (takeLine (n + 1) (c :: s)).length := by
  simp only [takeLine]
  split <;> simp

theorem length_takeLine_le (n : Nat) (s : List Byte) : (takeLine n s).length ≤ n := by
  induction n generalizing s with
  | zero => simp [takeLine]
  | succ n ih =>
      cases s with
      | nil => simp [takeLine]
      | cons c s =>
          have hle := ih s
          simp only [takeLine]
          split
          · simp
          · simpa using hle

theorem takeLine_append_newline {l : List Byte} (hl : newline ∉ l) (s : List Byte) {m : Nat}
    (hm : l.length < m) : takeLine m (l ++ newline :: s) = l ++ [newline] := by
  induction l generalizing m with
  | nil =>
      rcases m with _ | m
      · simp at hm
      · simp [takeLine]
  | cons c l ih =>
      have hc : c ≠ newline := fun h => hl (by simp [h])
      have hrest : newline ∉ l := fun h => hl (List.mem_cons_of_mem c h)
      rcases m with _ | m
      · simp at hm
      · have hlen : l.length < m := by simpa using hm
        simp only [List.cons_append, takeLine, hc, if_false, ih hrest hlen]

/-- A text without a newline is taken as far as there is room. -/
theorem takeLine_of_not_mem {l : List Byte} (hl : newline ∉ l) (m : Nat) (s : List Byte)
    (hs : l.length = m ∨ s = []) : takeLine m (l ++ s) = l.take m := by
  induction l generalizing m with
  | nil =>
      rcases hs with rfl | rfl
      · rfl
      · cases m <;> simp [takeLine]
  | cons c l ih =>
      have hc : c ≠ newline := fun h => hl (by simp [h])
      have hrest : newline ∉ l := fun h => hl (List.mem_cons_of_mem c h)
      cases m with
      | zero => rfl
      | succ m =>
          have hs' : l.length = m ∨ s = [] := hs.imp_left (by simp)
          simp only [List.cons_append, takeLine, hc, if_false, ih hrest m hs', List.take_succ_cons]

@[simp] theorem pieces_nil (n : Nat) : pieces n [] = [] := by
  rw [pieces]

theorem pieces_of_takeLine {s l t : List Byte} (hl : takeLine (n + 1) s = l) (hs : s = l ++ t)
    (hne : s ≠ []) : pieces n s = l :: pieces n t := by
  cases s with
  | nil => exact absurd rfl hne
  | cons c s =>
      rw [pieces, hl, hs]
      simp

/-- A line that fits is one piece, with its newline. -/
theorem pieces_line {l : List Byte} (hl : newline ∉ l) (hlen : l.length ≤ n) (s : List Byte) :
    pieces n (l ++ newline :: s) = (l ++ [newline]) :: pieces n s :=
  pieces_of_takeLine (takeLine_append_newline hl s (Nat.lt_succ_of_le hlen)) (by simp) (by simp)

/-- A longer line fills a piece without its newline. -/
theorem pieces_full {l : List Byte} (hl : newline ∉ l) (hlen : l.length = n + 1) (s : List Byte) :
    pieces n (l ++ s) = l :: pieces n s := by
  have hne : l ++ s ≠ [] := by
    intro h
    have hnil := (List.append_eq_nil_iff.1 h).1
    simp [hnil] at hlen
  refine pieces_of_takeLine ?_ rfl hne
  rw [takeLine_of_not_mem hl (n + 1) s (.inl hlen), ← hlen, List.take_length]

/-- The end of a file that does not end in a newline. -/
theorem pieces_last {l : List Byte} (hl : newline ∉ l) (hne : l ≠ []) (hlen : l.length ≤ n + 1) :
    pieces n l = [l] := by
  have htake : takeLine (n + 1) l = l := by
    have h := takeLine_of_not_mem hl (n + 1) [] (.inr rfl)
    rwa [List.append_nil, List.take_of_length_le hlen] at h
  rw [pieces_of_takeLine htake (List.append_nil l).symm hne, pieces_nil]

theorem takeLine_isPrefix (m : Nat) (s : List Byte) : takeLine m s <+: s := by
  induction m generalizing s with
  | zero => exact List.nil_prefix
  | succ m ih =>
      cases s with
      | nil => exact List.nil_prefix
      | cons c s =>
          simp only [takeLine]
          split
          · exact ⟨s, rfl⟩
          · exact List.cons_prefix_cons.2 ⟨rfl, ih s⟩

/-- What stands behind a newline is not looked at. -/
theorem takeLine_newline (m : Nat) (a s : List Byte) :
    takeLine m (a ++ newline :: s) = takeLine m (a ++ [newline]) := by
  induction m generalizing a with
  | zero => rfl
  | succ m ih =>
      cases a with
      | nil => simp [takeLine]
      | cons c a => simp only [List.cons_append, takeLine, ih a]

/-- No piece reaches over a newline. -/
theorem pieces_append (a s : List Byte) :
    pieces n (a ++ newline :: s) = pieces n (a ++ [newline]) ++ pieces n s := by
  -- On the length of what stands before this newline.
  induction hm : a.length using Nat.strongRecOn generalizing a with
  | _ m ih =>
      rcases takeLine_isPrefix (n + 1) (a ++ [newline]) with ⟨t, ht⟩
      have hne : ∀ r, a ++ newline :: r ≠ [] := by simp
      have hsplit : a ++ newline :: s = takeLine (n + 1) (a ++ [newline]) ++ (t ++ s) := by
        rw [← List.append_assoc, ht]
        simp
      have hpos : 0 < (takeLine (n + 1) (a ++ [newline])).length := by
        cases a with
        | nil => exact length_takeLine_pos n newline []
        | cons c a => exact length_takeLine_pos n c _
      rw [pieces_of_takeLine (takeLine_newline (n + 1) a s) hsplit (hne s),
        pieces_of_takeLine rfl ht.symm (hne [])]
      -- The piece ends at the newline, or leaves a shorter text in front of it.
      rcases List.eq_nil_or_concat' t with rfl | ⟨a', c, rfl⟩
      · simp
      · have hlast : takeLine (n + 1) (a ++ [newline]) ++ a' = a ∧ c = newline := by
          have hcat : (takeLine (n + 1) (a ++ [newline]) ++ a') ++ [c] = a ++ [newline] := by
            rw [List.append_assoc]
            exact ht
          have hinj := List.append_inj' hcat rfl
          exact ⟨hinj.1, by simpa using hinj.2⟩
        have hlen : a'.length < m := by
          have hsum := congrArg List.length hlast.1
          rw [List.length_append] at hsum
          omega
        have hrest := ih a'.length hlen a' rfl
        rw [hlast.2, List.append_assoc, List.singleton_append, hrest]
        rfl

/-- The pieces hold the bytes of the file, and no others. -/
theorem mem_of_mem_pieces {s l : List Byte} {c : Byte} (hl : l ∈ pieces n s) (hc : c ∈ l) :
    c ∈ s := by
  induction hm : s.length using Nat.strongRecOn generalizing s with
  | _ m ih =>
      cases s with
      | nil => simp at hl
      | cons a s =>
          rw [pieces] at hl
          rcases List.mem_cons.1 hl with rfl | hl
          · exact (takeLine_isPrefix (n + 1) (a :: s)).subset hc
          · have hpos := length_takeLine_pos n a s
            refine List.mem_of_mem_drop (ih _ ?_ hl rfl)
            simp only [List.length_drop, List.length_cons] at hm ⊢
            omega

end Pieces

/-- `fgets` never leaves its array, and the array then holds its piece as a string. -/
theorem fgets_spec {k : Nat} (hk : 0 < k) (b : Buf k) (stream : List Byte) :
    ∃ b', fgets b stream = some b' ∧ (0 : Byte) ∈ b'.bytes ∧
      b'.str = cstr (fgetsPiece k stream) := by
  have hle := length_takeLine_le (k - 1) stream
  have hshort : (fgetsPiece k stream).length < k := by
    simp only [fgetsPiece]
    omega
  rcases b.blit_terminated hshort with ⟨b', rest, hb', hbytes⟩
  refine ⟨b', hb', by simp [hbytes], ?_⟩
  -- The string ends at a NUL of the file, or at the terminator.
  by_cases hnul : (0 : Byte) ∈ fgetsPiece k stream
  · rcases eq_cstr_append_zero hnul with ⟨tail, htail⟩
    rw [htail, List.append_assoc, List.cons_append] at hbytes
    exact Buf.str_of_bytes (zero_not_mem_cstr _) _ hbytes
  · rw [cstr_eq_self hnul]
    exact Buf.str_of_bytes hnul rest hbytes

/-! ## Lines -/

/-- The lines of a file, without their newlines.  Behind the last newline stands one more, which may
be empty. -/
def lines (file : List Byte) : List (List Byte) :=
  file.splitOn newline

/-- The file with the given lines. -/
def ofLines (ls : List (List Byte)) : List Byte :=
  ls.flatMap fun l => l ++ [newline]

section Lines

@[simp] theorem ofLines_nil : ofLines [] = [] := rfl

@[simp] theorem ofLines_cons (l : List Byte) (ls : List (List Byte)) :
    ofLines (l :: ls) = l ++ newline :: ofLines ls := by
  simp [ofLines]

@[simp] theorem ofLines_append (ls ms : List (List Byte)) :
    ofLines (ls ++ ms) = ofLines ls ++ ofLines ms :=
  List.flatMap_append

theorem lines_cons {l : List Byte} (hl : newline ∉ l) (s : List Byte) :
    lines (l ++ newline :: s) = l :: lines s :=
  List.splitOn_append_cons_self_of_not_mem hl s

theorem lines_last {l : List Byte} (hl : newline ∉ l) : lines l = [l] :=
  List.splitOn_eq_singleton hl

theorem lines_ofLines {ls : List (List Byte)} (hls : ∀ l ∈ ls, newline ∉ l) :
    lines (ofLines ls) = ls ++ [[]] := by
  induction ls with
  | nil => exact lines_last (by simp)
  | cons l ls ih =>
      have hrest := ih fun m hm => hls m (List.mem_cons_of_mem l hm)
      rw [ofLines_cons, lines_cons (hls l List.mem_cons_self), hrest]
      rfl

/-- A line without a NUL is a string, and so is the line with its newline. -/
theorem cstr_line {l : List Byte} (hl : (0 : Byte) ∉ l) : cstr (l ++ [newline]) = l ++ [newline] := by
  have hnewline : (0 : Byte) ≠ newline := by decide
  exact cstr_eq_self (by simp [hl, hnewline])

theorem newline_not_mem_of_mem_lines {file l : List Byte} (hl : l ∈ lines file) : newline ∉ l :=
  not_mem_of_mem_splitOn hl

/-- Every file is a line without a newline, or a line in front of another file. -/
theorem line_induction {P : List Byte → Prop} (last : ∀ l, newline ∉ l → P l)
    (line : ∀ l s, newline ∉ l → P s → P (l ++ newline :: s)) (file : List Byte) : P file := by
  induction hm : file.length using Nat.strongRecOn generalizing file with
  | _ m ih =>
      by_cases hmem : newline ∈ file
      · rcases List.eq_append_cons_of_mem hmem with ⟨l, s, rfl, hl⟩
        refine line l s hl (ih s.length ?_ s rfl)
        simp only [List.length_append, List.length_cons] at hm
        omega
      · exact last file hmem

theorem mem_of_mem_lines {file l : List Byte} {c : Byte} (hl : l ∈ lines file) (hc : c ∈ l) :
    c ∈ file := by
  induction file using line_induction with
  | last m hm =>
      rw [lines_last hm, List.mem_singleton] at hl
      exact hl ▸ hc
  | line m s hm ih =>
      rw [lines_cons hm] at hl
      rcases List.mem_cons.1 hl with rfl | hl
      · exact List.mem_append_left _ hc
      · exact List.mem_append_right m (List.mem_cons_of_mem newline (ih hl))

end Lines

/-! ## `sscanf` -/

/-- The word at the front of `s`, behind its white space. -/
def scanWord (s : List Byte) : List Byte :=
  (s.dropWhile isSpace).takeWhile fun c => !isSpace c

/-- What `scanWord` leaves. -/
def scanRest (s : List Byte) : List Byte :=
  (s.dropWhile isSpace).dropWhile fun c => !isSpace c

/-- `sscanf(text, "%s %s", first, second)`: the array `first`, and the string stored to `second` if
there is a second word. -/
def sscanf2 {k : Nat} (text : List Byte) (first : Buf k) : Option (Buf k × Option (List Byte)) :=
  if scanWord text = [] then some (first, none)
  else
    (first.blit 0 (scanWord text ++ [0])).map fun b =>
      (b, if scanWord (scanRest text) = [] then none else some (scanWord (scanRest text)))

theorem words_of_scanWord_nil {s : List Byte} (h : scanWord s = []) : words isSpace s = [] := by
  rw [← words_dropWhile s]
  cases hs : s.dropWhile isSpace with
  | nil => exact words_nil isSpace
  | cons c t =>
      -- What the white space ends at is a letter.
      have hc := List.head?_dropWhile_not isSpace s
      rw [hs] at hc
      have hletter : isSpace c = false := by simpa using hc
      simp [scanWord, hs, hletter] at h

theorem words_scan {s : List Byte} (h : scanWord s ≠ []) :
    words isSpace s = scanWord s :: words isSpace (scanRest s) := by
  rw [← words_dropWhile s]
  exact words_eq_cons h

/-- The second word is what is stored, if there is one. -/
theorem sscanf2_spec {k : Nat} {text : List Byte} (first : Buf k) (hfit : text.length < k) :
    ∃ b, sscanf2 text first = some (b, (words isSpace text)[1]?) := by
  by_cases hnil : scanWord text = []
  · exact ⟨first, by simp [sscanf2, hnil, words_of_scanWord_nil hnil]⟩
  · have hlen : (scanWord text).length ≤ text.length :=
      ((List.takeWhile_sublist _).trans (List.dropWhile_sublist _)).length_le
    have hroom : (scanWord text).length < k := hlen.trans_lt hfit
    rcases first.blit_terminated hroom with ⟨b, -, hb, -⟩
    refine ⟨b, ?_⟩
    rw [sscanf2, if_neg hnil, hb, words_scan hnil, List.getElem?_cons_succ]
    by_cases hsecond : scanWord (scanRest text) = []
    · simp [hsecond, words_of_scanWord_nil hsecond]
    · simp [hsecond, words_scan hsecond]

end CLib
end CommServer
