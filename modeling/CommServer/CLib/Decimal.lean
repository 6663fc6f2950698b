import Mathlib.Data.Nat.Digits.Lemmas
import CommServer.CLib.Memory

/-!
# Decimal — `"%0*d"` and `atoi`

Numbers as decimal digits in memory.  The digits of a number and the number of a list of digits are
those of `Nat.digitsAppend` and `Nat.ofDigits`; memory has the most significant digit first.

* `zeroPadded w n` : the digits of `n`, padded with zeros to a width of `w`;
* `atoi mem`       : the number at the front of the C string in `mem`;
* `natAbs_atoi_lt` : the size of what is read;
* `atoi_zeroPadded` : reading back what was printed;
* `atoi_numeral`   : reading a numeral.
-/

namespace CommServer
namespace CLib

/-! ## Digits -/

def isDigit (c : Byte) : Bool :=
  0x30 ≤ c && c ≤ 0x39

def digitChar (d : Nat) : Byte :=
  UInt8.ofNat (0x30 + d)

def digitVal (c : Byte) : Nat :=
  c.toNat - 0x30

/-- The number that a list of digits stands for. -/
def decimalValue (ds : List Byte) : Nat :=
  Nat.ofDigits 10 (ds.reverse.map digitVal)

/-- The digits of `n`, with zeros in front up to a width of `w`. -/
def zeroPadded (w n : Nat) : List Byte :=
  ((Nat.digitsAppend 10 w n).map digitChar).reverse

/-- `"%0wd"` of an `int`; a sign takes one place of the width. -/
def printfPadded (w : Nat) (n : Int) : List Byte :=
  if n < 0 then 0x2d :: zeroPadded (w - 1) n.natAbs else zeroPadded w n.toNat

theorem toNat_digitChar {d : Nat} (hd : d < 10) : (digitChar d).toNat = 0x30 + d := by
  rw [digitChar, UInt8.toNat_ofNat']
  omega

theorem digitVal_digitChar {d : Nat} (hd : d < 10) : digitVal (digitChar d) = d := by
  rw [digitVal, toNat_digitChar hd]
  omega

theorem isDigit_digitChar {d : Nat} (hd : d < 10) : isDigit (digitChar d) = true := by
  have hnat := toNat_digitChar hd
  simp only [isDigit, Bool.and_eq_true, decide_eq_true_eq, UInt8.le_iff_toNat_le, hnat]
  constructor
  · exact Nat.le_add_right 0x30 d
  · show 0x30 + d ≤ 0x39
    omega

theorem isDigit_of_mem_zeroPadded {w n : Nat} {c : Byte} (hc : c ∈ zeroPadded w n) :
    isDigit c = true := by
  rcases List.mem_map.1 (List.mem_reverse.1 hc) with ⟨d, hd, rfl⟩
  exact isDigit_digitChar (Nat.lt_of_mem_digitsAppend (by decide) w d hd)

theorem length_zeroPadded {w n : Nat} (hn : n < 10 ^ w) : (zeroPadded w n).length = w := by
  rw [zeroPadded, List.length_reverse, List.length_map]
  exact Nat.length_digitsAppend (by decide) w hn

/-- Padding does not change the value. -/
theorem decimalValue_zeroPadded (w n : Nat) : decimalValue (zeroPadded w n) = n := by
  have hdigits : ∀ d ∈ Nat.digitsAppend 10 w n, digitVal (digitChar d) = d := by
    intro d hd
    exact digitVal_digitChar (Nat.lt_of_mem_digitsAppend (by decide) w d hd)
  calc
    decimalValue (zeroPadded w n)
        = Nat.ofDigits 10 ((Nat.digitsAppend 10 w n).map fun d => digitVal (digitChar d)) := by
          simp [decimalValue, zeroPadded, Function.comp_def]
    _ = Nat.ofDigits 10 (Nat.digitsAppend 10 w n) := by
          rw [List.map_congr_left hdigits, List.map_id']
    _ = n := by
          rw [Nat.digitsAppend, Nat.ofDigits_append_replicate_zero, Nat.ofDigits_digits]

/-! ## `atoi` -/

/-- `isspace`. -/
def isSpace (c : Byte) : Bool :=
  c = 0x20 || (0x09 ≤ c && c ≤ 0x0d)

/-- A sign and the digits that follow it. -/
def signedDecimal (s : List Byte) : Int :=
  match s with
  | 0x2d :: s => -(decimalValue (s.takeWhile isDigit))
  | 0x2b :: s => decimalValue (s.takeWhile isDigit)
  | s => decimalValue (s.takeWhile isDigit)

/-- `atoi`, which is `(int) strtol(mem, NULL, 10)`: `strtol` saturates, the cast drops bits. -/
def atoi (mem : List Byte) : Int :=
  (max (-2 ^ 63) (min (2 ^ 63 - 1) (signedDecimal ((cstr mem).dropWhile isSpace)))).bmod (2 ^ 32)

/-- `atoi` reads no further than the terminator. -/
theorem atoi_append_zero (s rest : List Byte) : atoi (s ++ 0 :: rest) = atoi s := by
  rw [atoi, atoi, cstr_append_zero_cons]

theorem isSpace_eq_false {c : Byte} (hc : isDigit c = true) : isSpace c = false := by
  by_contra hspace
  -- Blanks have smaller codes than digits.
  have hrange : 0x30 ≤ c.toNat ∧ c.toNat ≤ 0x39 := by
    simpa [isDigit, UInt8.le_iff_toNat_le] using hc
  have hcontrol : c ≠ 0x20 → 0x09 ≤ c.toNat ∧ c.toNat ≤ 0x0d := by
    simpa [isSpace, UInt8.le_iff_toNat_le] using hspace
  have hne : c ≠ 0x20 := by
    rintro rfl
    exact absurd hc (by decide)
  have hlow := (hcontrol hne).2
  omega

theorem dropWhile_isSpace_of_digits {ds : List Byte} (hds : ∀ c ∈ ds, isDigit c = true) :
    ds.dropWhile isSpace = ds := by
  cases ds with
  | nil => rfl
  | cons c ds => simp [isSpace_eq_false (hds c List.mem_cons_self)]

theorem signedDecimal_of_digits {ds : List Byte} (hds : ∀ c ∈ ds, isDigit c = true) :
    signedDecimal ds = decimalValue ds := by
  have hall : ds.takeWhile isDigit = ds := List.takeWhile_eq_self_iff.2 hds
  unfold signedDecimal
  split
  · have hsign := hds 0x2d List.mem_cons_self
    exact absurd hsign (by decide)
  · have hsign := hds 0x2b List.mem_cons_self
    exact absurd hsign (by decide)
  · rw [hall]

theorem digitVal_lt {c : Byte} (hc : isDigit c = true) : digitVal c < 10 := by
  have hrange : 0x30 ≤ c.toNat ∧ c.toNat ≤ 0x39 := by
    simpa [isDigit, UInt8.le_iff_toNat_le] using hc
  unfold digitVal
  omega

theorem decimalValue_lt {ds : List Byte} (hds : ∀ c ∈ ds, isDigit c = true) :
    decimalValue ds < 10 ^ ds.length := by
  have hdigits : ∀ d ∈ ds.reverse.map digitVal, d < 10 := by
    intro d hd
    rcases List.mem_map.1 hd with ⟨c, hc, rfl⟩
    exact digitVal_lt (hds c (List.mem_reverse.1 hc))
  have hlt := Nat.ofDigits_lt_base_pow_length (by decide) hdigits
  rwa [List.length_map, List.length_reverse] at hlt

/-- The digits at the front of a text of at most `w` letters. -/
theorem decimalValue_takeWhile_lt {s : List Byte} {w : Nat} (h : s.length ≤ w) :
    decimalValue (s.takeWhile isDigit) < 10 ^ w := by
  have hle := (List.takeWhile_prefix isDigit (l := s)).length_le
  calc
    decimalValue (s.takeWhile isDigit)
        < 10 ^ (s.takeWhile isDigit).length := decimalValue_lt fun _ => List.mem_takeWhile_imp
    _ ≤ 10 ^ w := Nat.pow_le_pow_right (by decide) (hle.trans h)

theorem natAbs_signedDecimal_lt {s : List Byte} {w : Nat} (h : s.length ≤ w) :
    (signedDecimal s).natAbs < 10 ^ w := by
  unfold signedDecimal
  split
  · rw [Int.natAbs_neg, Int.natAbs_natCast]
    exact decimalValue_takeWhile_lt ((Nat.le_succ _).trans h)
  · rw [Int.natAbs_natCast]
    exact decimalValue_takeWhile_lt ((Nat.le_succ _).trans h)
  · rw [Int.natAbs_natCast]
    exact decimalValue_takeWhile_lt h

/-- What `atoi` makes of a short text has no more digits than the text has letters. -/
theorem natAbs_atoi_lt {mem : List Byte} {w : Nat} (h : mem.length ≤ w) (hw : w ≤ 9) :
    (atoi mem).natAbs < 10 ^ w := by
  have hpre : cstr mem <+: mem := cstr_prefix mem
  have hshort : ((cstr mem).dropWhile isSpace).length ≤ w :=
    (List.length_dropWhile_le _ _).trans (hpre.length_le.trans h)
  have hlt := natAbs_signedDecimal_lt hshort
  have hpow : 10 ^ w ≤ 10 ^ 9 := Nat.pow_le_pow_right (by decide) hw
  -- Neither conversion changes a number of nine digits.
  have hclamp : max (-2 ^ 63) (min (2 ^ 63 - 1) (signedDecimal ((cstr mem).dropWhile isSpace))) =
      signedDecimal ((cstr mem).dropWhile isSpace) := by omega
  have hmod : atoi mem = signedDecimal ((cstr mem).dropWhile isSpace) := by
    rw [atoi, hclamp]
    exact Int.bmod_eq_of_le (by omega) (by omega)
  rw [hmod]
  exact hlt

/-- A printed number is read back. -/
theorem atoi_zeroPadded {w n : Nat} (hn : n < 2 ^ 31) (rest : List Byte) :
    atoi (zeroPadded w n ++ 0 :: rest) = n := by
  have hdigit : ∀ c ∈ zeroPadded w n, isDigit c = true := fun c hc => isDigit_of_mem_zeroPadded hc
  have hzero : (0 : Byte) ∉ zeroPadded w n := fun hmem => absurd (hdigit 0 hmem) (by decide)
  have hspace : (zeroPadded w n).dropWhile isSpace = zeroPadded w n :=
    dropWhile_isSpace_of_digits hdigit
  rw [atoi, cstr_append_zero hzero, hspace, signedDecimal_of_digits hdigit,
    decimalValue_zeroPadded]
  -- The number is in the range of a `long` and of an `int`, so neither conversion changes it.
  have hclamp : max (-2 ^ 63) (min (2 ^ 63 - 1) (n : Int)) = n := by omega
  rw [hclamp]
  exact Int.bmod_eq_of_le (by omega) (by omega)

/-! ## Numerals -/

/-- A text without its sign. -/
def unsigned : List Byte → List Byte
  | 0x2d :: s => s
  | 0x2b :: s => s
  | s => s

/-- The number that a text denotes, if it is made of digits and perhaps a sign before them. -/
def numeral (s : List Byte) : Option Int :=
  if unsigned s ≠ [] ∧ (unsigned s).all isDigit then some (signedDecimal s) else none

/-- What a numeral begins with, and what it holds. -/
theorem letters_of_numeral {s : List Byte} (h : unsigned s ≠ [] ∧ (unsigned s).all isDigit) :
    ∀ c ∈ s, c = 0x2d ∨ c = 0x2b ∨ isDigit c = true := by
  have hdigits : ∀ c ∈ unsigned s, isDigit c = true := List.all_eq_true.1 h.2
  intro c hc
  unfold unsigned at hdigits
  split at hdigits
  · exact (List.mem_cons.1 hc).imp_right fun hmem => .inr (hdigits c hmem)
  · exact .inr ((List.mem_cons.1 hc).imp_right (hdigits c))
  · exact .inr (.inr (hdigits c hc))

/-- A numeral in the range of an `int` is read as its number. -/
theorem atoi_numeral {s : List Byte} {d : Int} (h : numeral s = some d) (hlo : -2 ^ 31 ≤ d)
    (hhi : d < 2 ^ 31) : atoi s = d := by
  unfold numeral at h
  split_ifs at h with hs
  have hletters := letters_of_numeral hs
  have hd : signedDecimal s = d := Option.some.inj h
  -- No terminator inside, and no white space in front.
  have hzero : (0 : Byte) ∉ s := fun hmem => absurd (hletters 0 hmem) (by decide)
  have hspace : s.dropWhile isSpace = s := by
    cases s with
    | nil => rfl
    | cons c s =>
        have hc : isSpace c = false := by
          rcases hletters c List.mem_cons_self with rfl | rfl | hdigit
          · rfl
          · rfl
          · exact isSpace_eq_false hdigit
        simp [hc]
  rw [atoi, cstr_eq_self hzero, hspace, hd]
  have hclamp : max (-2 ^ 63) (min (2 ^ 63 - 1) d) = d := by omega
  rw [hclamp]
  exact Int.bmod_eq_of_le (by omega) (by omega)

end CLib
end CommServer
