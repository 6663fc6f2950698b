import Mathlib.Data.List.TakeWhile

/-!
# Memory — C arrays and NUL-terminated strings

A C object is the list of its bytes.  A pointer into it is the list of the bytes from the cursor
to the end of the object, so that reading past the object is reading past the list.  Operations
that can leave the object return `Option`, with `none` for the out-of-range access:

* `cstr mem` : the C string at the front of `mem`;
* `strlen`   : the scan for the terminator;
* `Buf n`    : an array of exactly `n` bytes, with its length as a field.
-/

namespace CommServer
namespace CLib

abbrev Byte := UInt8

/-! ## C strings -/

/-- The bytes of a string literal, without its terminator. -/
def ascii (s : String) : List Byte :=
  s.toList.map fun c => c.toNat.toUInt8

/-- The C string at the front of `mem`: the bytes before the first NUL. -/
def cstr (mem : List Byte) : List Byte :=
  mem.takeWhile (· ≠ 0)

/-- `strlen`; it fails when the scan runs off the end of the object. -/
def strlen : List Byte → Option Nat
  | [] => none
  | b :: rest => if b = 0 then some 0 else (strlen rest).map (· + 1)

theorem zero_not_mem_cstr (mem : List Byte) : (0 : Byte) ∉ cstr mem := by
  intro h
  have hne := List.mem_takeWhile_imp h
  simp at hne

theorem cstr_prefix (mem : List Byte) : cstr mem <+: mem :=
  List.takeWhile_prefix _

/-- A list without any NUL is read to its end. -/
theorem cstr_eq_self {s : List Byte} (hs : (0 : Byte) ∉ s) : cstr s = s := by
  refine List.takeWhile_eq_self_iff.2 ?_
  intro b hb
  have hne : b ≠ 0 := ne_of_mem_of_not_mem hb hs
  simpa using hne

/-- Behind a terminator nothing counts, wherever the string ends. -/
theorem cstr_append_zero_cons (s rest : List Byte) : cstr (s ++ 0 :: rest) = cstr s := by
  induction s with
  | nil => simp [cstr]
  | cons b s ih =>
      by_cases hb : b = 0
      · simp [cstr, hb]
      · have hcons (t : List Byte) : cstr (b :: t) = b :: cstr t := by simp [cstr, hb]
        rw [List.cons_append, hcons, hcons, ih]

/-- A NUL-free list is its own C string once a terminator follows it. -/
@[simp] theorem cstr_append_zero {s : List Byte} (hs : (0 : Byte) ∉ s) (rest : List Byte) :
    cstr (s ++ 0 :: rest) = s := by
  rw [cstr_append_zero_cons, cstr_eq_self hs]

/-- An object that holds a NUL splits at the first one. -/
theorem eq_cstr_append_zero {mem : List Byte} (h : (0 : Byte) ∈ mem) :
    ∃ rest, mem = cstr mem ++ 0 :: rest := by
  induction mem with
  | nil => simp at h
  | cons b mem ih =>
      by_cases hb : b = 0
      · subst hb
        exact ⟨mem, by simp [cstr]⟩
      · have hmem : (0 : Byte) ∈ mem := by
          rcases List.mem_cons.1 h with h0 | hmem
          · exact absurd h0.symm hb
          · exact hmem
        rcases ih hmem with ⟨rest, hrest⟩
        refine ⟨rest, ?_⟩
        have hcons : cstr (b :: mem) = b :: cstr mem := by
          simp [cstr, hb]
        rw [hcons, List.cons_append, ← hrest]

theorem length_cstr_lt {mem : List Byte} (h : (0 : Byte) ∈ mem) :
    (cstr mem).length < mem.length := by
  rcases eq_cstr_append_zero h with ⟨rest, hrest⟩
  have hlen := congrArg List.length hrest
  simp only [List.length_append, List.length_cons] at hlen
  omega

/-- The scan succeeds exactly on the objects that hold a NUL, and counts the bytes before it. -/
theorem strlen_eq (mem : List Byte) :
    strlen mem = if (0 : Byte) ∈ mem then some (cstr mem).length else none := by
  induction mem with
  | nil => simp [strlen]
  | cons b mem ih =>
      by_cases hb : b = 0
      · simp [strlen, cstr, hb]
      · have hne : ¬ (0 : Byte) = b := fun h => hb h.symm
        by_cases hmem : (0 : Byte) ∈ mem
        · have hlen : (cstr (b :: mem)).length = (cstr mem).length + 1 := by
            simp [cstr, hb]
          simp [strlen, hb, ih, hmem, hlen]
        · simp [strlen, hb, hne, ih, hmem]

theorem strlen_of_mem {mem : List Byte} (h : (0 : Byte) ∈ mem) :
    strlen mem = some (cstr mem).length := by
  simp [strlen_eq, h]

theorem strlen_append_zero {s : List Byte} (hs : (0 : Byte) ∉ s) (rest : List Byte) :
    strlen (s ++ 0 :: rest) = some s.length := by
  rw [strlen_of_mem (by simp), cstr_append_zero hs]

theorem strlen_isSome_iff (mem : List Byte) : (strlen mem).isSome ↔ (0 : Byte) ∈ mem := by
  by_cases h : (0 : Byte) ∈ mem <;> simp [strlen_eq, h]

/-! ## Arrays -/

/-- A C array of `n` bytes. -/
structure Buf (n : Nat) where
  bytes : List Byte
  size : bytes.length = n
  deriving DecidableEq, Repr

namespace Buf

variable {n : Nat}

@[ext] theorem ext {a b : Buf n} (h : a.bytes = b.bytes) : a = b := by
  cases a
  cases b
  cases h
  rfl

/-- `memset(b, 0x00, sizeof(b))`. -/
def zeroed (n : Nat) : Buf n :=
  ⟨List.replicate n 0, by simp⟩

/-- The C string held by the array. -/
def str (b : Buf n) : List Byte :=
  cstr b.bytes

/-- `b[i] = v`, dropped when `i` is out of range. -/
def set (b : Buf n) (i : Nat) (v : Byte) : Buf n :=
  ⟨b.bytes.set i v, by simp [b.size]⟩

/-- `b[i] = v`; it fails when `i` is out of range. -/
def put (b : Buf n) (i : Nat) (v : Byte) : Option (Buf n) :=
  if i < n then some (b.set i v) else none

/-- Copy `chunk` to `b + off`; it fails when the copy would leave the array. -/
def blit (b : Buf n) (off : Nat) (chunk : List Byte) : Option (Buf n) :=
  if h : off + chunk.length ≤ n then
    some ⟨b.bytes.take off ++ chunk ++ b.bytes.drop (off + chunk.length), by
      simp only [List.length_append, List.length_take, List.length_drop, b.size]
      omega⟩
  else
    none

@[simp] theorem bytes_zeroed : (zeroed n).bytes = List.replicate n 0 := rfl

@[simp] theorem bytes_set (b : Buf n) (i : Nat) (v : Byte) :
    (b.set i v).bytes = b.bytes.set i v := rfl

theorem put_of_lt (b : Buf n) {i : Nat} (v : Byte) (h : i < n) : b.put i v = some (b.set i v) := by
  simp [put, h]

/-- The place of a byte is below the length of its array. -/
theorem lt_of_bytes {b : Buf n} {w x : List Byte} {a : Byte} (h : b.bytes = w ++ a :: x) :
    w.length < n := by
  have hsize := b.size
  rw [h, List.length_append, List.length_cons] at hsize
  omega

theorem blit_eq_some_iff (b b' : Buf n) (off : Nat) (s : List Byte) :
    b.blit off s = some b' ↔
      off + s.length ≤ n ∧ b'.bytes = b.bytes.take off ++ s ++ b.bytes.drop (off + s.length) := by
  by_cases h : off + s.length ≤ n
  · -- Equal bytes are equal arrays.
    simp only [blit, h, dite_true, Option.some.injEq, true_and]
    constructor
    · rintro rfl
      rfl
    · intro hb
      exact Buf.ext hb.symm
  · simp [blit, h]

/-- Two copies, the second behind the first, are one. -/
theorem blit_append {b b₁ b₂ : Buf n} {off : Nat} {s t : List Byte} (h₁ : b.blit off s = some b₁)
    (h₂ : b₁.blit (off + s.length) t = some b₂) : b.blit off (s ++ t) = some b₂ := by
  rcases (blit_eq_some_iff _ _ _ _).1 h₁ with ⟨-, hb₁⟩
  rcases (blit_eq_some_iff _ _ _ _).1 h₂ with ⟨hfit, hb₂⟩
  have hoff : (b.bytes.take off).length = off := by
    simp only [List.length_take, b.size]
    omega
  have hpre : (b.bytes.take off ++ s).length = off + s.length := by simp [hoff]
  refine (blit_eq_some_iff _ _ _ _).2 ⟨by simpa [Nat.add_assoc] using hfit, ?_⟩
  -- The second copy replaces what the first has left behind itself, and nothing of the first.
  calc
    b₂.bytes
        = b.bytes.take off ++ s ++ t ++ b₁.bytes.drop (off + s.length + t.length) := by
          rw [hb₂, hb₁, List.take_left' hpre]
    _ = b.bytes.take off ++ s ++ t ++ b.bytes.drop (off + s.length + t.length) := by
          rw [hb₁, List.drop_append, hpre, List.drop_of_length_le (by omega), List.nil_append,
            List.drop_drop]
          congr 2
          omega
    _ = b.bytes.take off ++ (s ++ t) ++ b.bytes.drop (off + (s ++ t).length) := by
          rw [List.append_assoc (b.bytes.take off) s t, List.length_append, Nat.add_assoc]

/-- A copy that stays inside the array. -/
theorem blit_of_le (b : Buf n) {off : Nat} {s : List Byte} (h : off + s.length ≤ n) :
    ∃ b', b.blit off s = some b' := by
  simp [blit, h]

/-- The next part of a stream goes behind what has been copied of it. -/
theorem blit_next {b b₁ : Buf n} {off got : Nat} {stream chunk : List Byte}
    (h : b.blit off (stream.take got) = some b₁) (hgot : got ≤ stream.length)
    (hchunk : chunk <+: stream.drop got) (hroom : off + got + chunk.length ≤ n) :
    ∃ b₂, b₁.blit (off + got) chunk = some b₂ ∧
      b.blit off (stream.take (got + chunk.length)) = some b₂ := by
  rcases b₁.blit_of_le hroom with ⟨b₂, hblit⟩
  have hlen : (stream.take got).length = got := List.length_take_of_le hgot
  refine ⟨b₂, hblit, ?_⟩
  rw [List.take_add, ← List.prefix_iff_eq_take.1 hchunk]
  refine blit_append h ?_
  rw [hlen]
  exact hblit

@[simp] theorem blit_zero_nil (b : Buf n) : b.blit 0 [] = some b := by
  simp [blit_eq_some_iff]

/-- An array whose bytes are known up to a NUL holds that string. -/
theorem str_of_bytes {b : Buf n} {s : List Byte} (hs : (0 : Byte) ∉ s) (rest : List Byte)
    (h : b.bytes = s ++ 0 :: rest) : b.str = s := by
  simp [str, h, hs]

/-- A string that is copied with its terminator to the front of the array. -/
theorem blit_terminated (b : Buf n) {s : List Byte} (h : s.length < n) :
    ∃ b' rest, b.blit 0 (s ++ [0]) = some b' ∧ b'.bytes = s ++ 0 :: rest := by
  have hfit : 0 + (s ++ [0]).length ≤ n := by
    simp only [List.length_append, List.length_singleton]
    omega
  rcases b.blit_of_le hfit with ⟨b', hb'⟩
  have hbytes := ((blit_eq_some_iff _ _ _ _).1 hb').2
  rw [List.take_zero, List.nil_append, List.append_assoc, List.singleton_append] at hbytes
  exact ⟨b', _, hb', hbytes⟩

/-- A string that does not fit with its terminator. -/
theorem blit_terminated_eq_none (b : Buf n) {s : List Byte} (h : ¬ s.length < n) :
    b.blit 0 (s ++ [0]) = none := by
  have hover : ¬ 0 + (s ++ [0]).length ≤ n := by
    simp only [List.length_append, List.length_singleton]
    omega
  simp only [blit, hover, dite_false]

@[simp] theorem str_zeroed : (zeroed n).str = [] := by
  cases n <;> simp [str, cstr, List.replicate_succ]

/-- A string shorter than the array is terminated inside it. -/
theorem zero_mem_of_length_str_lt {b : Buf n} (h : b.str.length < n) : (0 : Byte) ∈ b.bytes := by
  by_contra hmem
  have hfull : b.str = b.bytes := cstr_eq_self hmem
  rw [hfull, b.size] at h
  omega

theorem length_str_lt {b : Buf n} (h : (0 : Byte) ∈ b.bytes) : b.str.length < n := by
  have hlt := length_cstr_lt h
  rw [b.size] at hlt
  exact hlt

theorem zero_not_mem_str (b : Buf n) : (0 : Byte) ∉ b.str :=
  zero_not_mem_cstr _

end Buf

end CLib
end CommServer
