import CommServer.Incl
import CommServer.Text.Fields
import CommServer.Text.Trim

/-!
# Base — `libsrc/base.c`

The field reader and the in-place trims:

* `getStr`   : field `*m` of a string, copied into a static array of 2049 bytes;
* `bclTrimall` : removes every space by moving the rest of the string down;
* `bclLtrim`   : removes leading blanks the same way;
* `bclRtrim`   : removes trailing blanks by overwriting them with NULs.

Each loop of the source is a function of its own.  `none` is an access outside the object.  What
the functions compute on a NUL-terminated argument is stated by `getStr_spec`, `bclTrimall_spec`,
`bclLtrim_spec` and `bclRtrim_spec`, through which the rest of the development uses them.
-/

namespace CommServer

open CLib Text

/-! ## `get_str` -/

/-- `sizeof(des_str)`. -/
abbrev desStrLen : Nat := 2049

/-- The static array of `get_str`.  The loop may leave the terminator's index one past the array,
so the byte behind `des_str` is part of the memory, and every index stored to is recorded. -/
structure DesStr where
  cells : Buf (desStrLen + 1)
  stores : List Nat
  deriving DecidableEq, Repr

namespace DesStr

/-- `memset(des_str, 0x00, sizeof(des_str))`. -/
def cleared : DesStr :=
  { cells := Buf.zeroed (desStrLen + 1)
    stores := [] }

/-- `des_str[i] = b`. -/
def store (d : DesStr) (i : Nat) (b : Byte) : DesStr :=
  { cells := d.cells.set i b
    stores := d.stores ++ [i] }

/-- The string a caller reads through the returned pointer. -/
def str (d : DesStr) : List Byte :=
  d.cells.str

end DesStr

/-- The body of the skipping loop: over a whole delimiter, counting it, or over one byte. -/
def skipMove (c : Int) (n : Nat) (i : Int) (p : List Byte) : Int × List Byte :=
  if c = 0 then (i + 1, p.drop n) else (i, p.drop 1)

/-- `while (i < *m)`: skip delimiters.  The inner `none` is the early return at the end of the
source; otherwise the loop is left with the cursor it has reached. -/
def skipFields (dlmt : List Byte) (n : Nat) (m i : Int) (p : List Byte) :
    Option (Option (List Byte)) :=
  if i < m then
    match strncmp p dlmt n with
    | none => none
    | some c =>
        match _h : (skipMove c n i p).2 with
        | [] => none
        -- `if (*p == '\0') return des_str;`, which ends the loop before the test of `i`.
        | b :: q =>
            if b = 0 then some none
            else skipFields dlmt n m (skipMove c n i p).1 (b :: q)
  else
    some (some p)
termination_by (m - i).toNat + p.length
decreasing_by
  have hlen := congrArg List.length _h
  by_cases hc : c = 0
  · simp only [skipMove, hc, if_true, List.length_drop, List.length_cons] at hlen ⊢
    omega
  · simp only [skipMove, hc, if_false, List.length_drop, List.length_cons] at hlen ⊢
    omega

/-- `for (i = 0; strncmp(p, dlmt, strlen(dlmt)) != 0; i++)`: copy up to the next delimiter, the
terminator of the source, or the cap. -/
def copyField (dlmt : List Byte) (n : Nat) (p : List Byte) (i : Nat) (d : DesStr) :
    Option (Nat × DesStr) :=
  match strncmp p dlmt n with
  | none => none
  | some c =>
      if c = 0 then some (i, d)
      -- The cap is tested before the store, so the first index it stops is 2049.
      else if i > 2048 then some (i, d)
      else
        match p with
        | [] => none
        | b :: q =>
            if b = 0 then some (i, d.store i b)
            else copyField dlmt n q (i + 1) (d.store i b)

/-- `get_str(source, m, dlmt)`. -/
def getStr (source : List Byte) (m : Int) (dlmt : List Byte) : Option DesStr := do
  let len ← strlen source
  if len = 0 then
    return DesStr.cleared
  let n ← strlen dlmt
  match ← skipFields dlmt n m 1 source with
  -- The source ended before the field.
  | none => return DesStr.cleared
  | some p =>
      let (i, d) ← copyField dlmt n p 0 DesStr.cleared
      -- The last store, behind what the loop has copied.
      return d.store i 0

/-! ## The trims -/

/-- The loop of `bcl_trimall`: spaces are stepped over, everything else moves down. -/
def trimallLoop {n : Nat} (b : Buf n) (str ptr : Nat) : Option (Buf n × Nat) :=
  match _h : b.bytes[ptr]? with
  | none => none
  | some c =>
      if c = 0 then some (b, str)
      else if c = 0x20 then trimallLoop b str (ptr + 1)
      else
        match b.put str c with
        | none => none
        | some b' => trimallLoop b' (str + 1) (ptr + 1)
termination_by n - ptr
decreasing_by
  all_goals
    have hlt := (List.getElem?_eq_some_iff.1 _h).1
    rw [b.size] at hlt
    omega

/-- `bcl_trimall(str)`. -/
def bclTrimall {n : Nat} (b : Buf n) : Option (Buf n) := do
  let (b', str) ← trimallLoop b 0 0
  b'.put str 0

/-- Space, tab, carriage return or line feed. -/
def isBlank (c : Byte) : Bool :=
  c = 0x20 || c = 0x09 || c = 0x0d || c = 0x0a

/-- The first loop of `bcl_ltrim`: move the read cursor over the blanks. -/
def ltrimSkip {n : Nat} (b : Buf n) (ptr : Nat) : Option Nat :=
  match _h : b.bytes[ptr]? with
  | none => none
  | some c => if isBlank c then ltrimSkip b (ptr + 1) else some ptr
termination_by n - ptr
decreasing_by
  have hlt := (List.getElem?_eq_some_iff.1 _h).1
  rw [b.size] at hlt
  omega

/-- The second loop of `bcl_ltrim`: `while (*ptr != 0x0) *str++ = *ptr++`. -/
def ltrimCopy {n : Nat} (b : Buf n) (str ptr : Nat) : Option (Buf n × Nat) :=
  match _h : b.bytes[ptr]? with
  | none => none
  | some c =>
      if c = 0 then some (b, str)
      else
        match b.put str c with
        | none => none
        | some b' => ltrimCopy b' (str + 1) (ptr + 1)
termination_by n - ptr
decreasing_by
  have hlt := (List.getElem?_eq_some_iff.1 _h).1
  rw [b.size] at hlt
  omega

/-- `bcl_ltrim(str)`. -/
def bclLtrim {n : Nat} (b : Buf n) : Option (Buf n) := do
  let ptr ← ltrimSkip b 0
  let (b', str) ← ltrimCopy b 0 ptr
  b'.put str 0

/-- The loop of `bcl_rtrim`, with the cursor at index `k - 1`. -/
def rtrimLoop {n : Nat} (b : Buf n) : Nat → Option (Buf n)
  -- `ptr < str`.
  | 0 => some b
  | k + 1 =>
      match b.bytes[k]? with
      | none => none
      | some c =>
          if isBlank c then (b.put k 0).bind fun b' => rtrimLoop b' k
          else some b

/-- `bcl_rtrim(str)`. -/
def bclRtrim {n : Nat} (b : Buf n) : Option (Buf n) := do
  let len ← strlen b.bytes
  rtrimLoop b len

end CommServer
