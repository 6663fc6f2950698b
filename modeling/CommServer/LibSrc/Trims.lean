import CommServer.LibSrc.BaseSpec
import CommServer.Transition.System

/-!
# Trims — both trims, in both orders

`bcl_ltrim` copies in place, so its two loops are taken apart here into steps on the array and the
cursors (`ltrimStep`).  `LtrimInv` says what the array holds at each of them; the read cursor is never
behind the write cursor.

* `ltrim_reaches` : the steps lead to what `bclLtrim` returns;
* `bclLtrim_bytes` : the whole array after `bcl_ltrim`;
* `trims_compute_core` : either order of the trims leaves the core of the text, and a second trim
  finds nothing to do.
-/

namespace CommServer

open CLib Text Transition

/-! ## The cursors of `bcl_ltrim` -/

/-- Where `bcl_ltrim` is. -/
inductive LtrimSt (n : Nat)
  | skipping (b : Buf n) (ptr : Nat)
  | copying (b : Buf n) (str ptr : Nat)
  | finished (b : Buf n)

/-- One round of either loop, or the store of the terminator behind them. -/
def ltrimStep {n : Nat} : LtrimSt n → Unit → Option (LtrimSt n)
  | .skipping b ptr, _ =>
      match b.bytes[ptr]? with
      | none => none
      | some c => some (if isBlank c then .skipping b (ptr + 1) else .copying b 0 ptr)
  | .copying b str ptr, _ =>
      match b.bytes[ptr]? with
      | none => none
      | some c =>
          if c = 0 then (b.put str 0).map .finished
          else (b.put str c).map fun b' => .copying b' (str + 1) (ptr + 1)
  | .finished _, _ => none

/-- The next access is to the text or its terminator: a read at `ptr`, a write at `str`. -/
def LtrimSt.Inside {n : Nat} (len : Nat) : LtrimSt n → Prop
  | .skipping _ ptr => ptr ≤ len
  | .copying _ str ptr => str ≤ ptr ∧ ptr ≤ len
  | .finished _ => True

/-- What the array holds at each step on the text `s`: the part of the core that has been moved, and
everything else as it was. -/
def LtrimInv {n : Nat} (s rest : List Byte) : LtrimSt n → Prop
  | .skipping b ptr => b.bytes = s ++ 0 :: rest ∧ ptr ≤ (s.takeWhile isBlank).length
  | .copying b str ptr =>
      str ≤ (s.dropWhile isBlank).length ∧ ptr = str + (s.takeWhile isBlank).length ∧
        b.bytes = (s.dropWhile isBlank).take str ++ (s ++ 0 :: rest).drop str
  | .finished b =>
      b.bytes = s.dropWhile isBlank ++
        0 :: (s ++ 0 :: rest).drop ((s.dropWhile isBlank).length + 1)

section Ltrim

variable {n : Nat} {s rest : List Byte}

theorem length_takeWhile_add_dropWhile (s : List Byte) :
    (s.takeWhile isBlank).length + (s.dropWhile isBlank).length = s.length := by
  rw [← List.length_append, List.takeWhile_append_dropWhile]

theorem LtrimInv.inside {st : LtrimSt n} (h : LtrimInv s rest st) : st.Inside s.length := by
  have hlen := length_takeWhile_add_dropWhile s
  cases st with
  | skipping b ptr =>
      have hptr := h.2
      show ptr ≤ s.length
      omega
  | copying b str ptr =>
      rcases h with ⟨hstr, hptr, -⟩
      show str ≤ ptr ∧ ptr ≤ s.length
      omega
  | finished b => trivial

/-- The original text is read behind what has been overwritten. -/
theorem drop_text {w v : List Byte} (hcore : s.dropWhile isBlank = w ++ v) :
    ((s ++ 0 :: rest).drop w.length).drop (s.takeWhile isBlank).length = v ++ 0 :: rest := by
  have htext : s ++ 0 :: rest = (s.takeWhile isBlank ++ w) ++ (v ++ 0 :: rest) := by
    calc
      s ++ 0 :: rest = s.takeWhile isBlank ++ s.dropWhile isBlank ++ 0 :: rest := by
        rw [List.takeWhile_append_dropWhile]
      _ = (s.takeWhile isBlank ++ w) ++ (v ++ 0 :: rest) := by
        rw [hcore]
        simp only [List.append_assoc]
  rw [List.drop_drop, htext]
  refine List.drop_left' ?_
  rw [List.length_append]
  omega

/-- A store behind `w` in an array that is unchanged from there on. -/
theorem bytes_set_cursor {b : Buf n} {w x : List Byte} (hbytes : b.bytes = w ++ x.drop w.length)
    (hlt : w.length < x.length) (a : Byte) :
    (b.set w.length a).bytes = w ++ a :: x.drop (w.length + 1) := by
  rw [Buf.bytes_set, hbytes, List.drop_eq_getElem_cons hlt, List.set_append_right _ _ le_rfl,
    Nat.sub_self, List.set_cons_zero]

/-- The skipping loop passes the blank prefix and stops behind it. -/
theorem ltrimStep_skipping {b : Buf n} {ptr : Nat} (h : LtrimInv s rest (.skipping b ptr)) :
    ∃ st, ltrimStep (.skipping b ptr) () = some st ∧ LtrimInv s rest st := by
  rcases h with ⟨hbytes, hptr⟩
  have htext : b.bytes = s.takeWhile isBlank ++ (s.dropWhile isBlank ++ 0 :: rest) := by
    rw [← List.append_assoc, List.takeWhile_append_dropWhile, hbytes]
  rcases Nat.lt_or_eq_of_le hptr with hlt | heq
  · have hget : b.bytes[ptr]? = some (s.takeWhile isBlank)[ptr] := by
      rw [htext, List.getElem?_append_left hlt, List.getElem?_eq_getElem hlt]
    have hblank : isBlank (s.takeWhile isBlank)[ptr] = true :=
      List.mem_takeWhile_imp (List.getElem_mem hlt)
    exact ⟨.skipping b (ptr + 1), by simp [ltrimStep, hget, hblank], hbytes, hlt⟩
  · -- The byte behind the blanks is the first of the core, or the terminator.
    obtain ⟨c, hget, hc⟩ : ∃ c, b.bytes[ptr]? = some c ∧ isBlank c = false := by
      rw [htext, heq, List.getElem?_append_right le_rfl, Nat.sub_self]
      cases hcore : s.dropWhile isBlank with
      | nil => exact ⟨0, rfl, rfl⟩
      | cons a v =>
          have hhead := List.head?_dropWhile_not isBlank s
          rw [hcore] at hhead
          exact ⟨a, rfl, by simpa using hhead⟩
    refine ⟨.copying b 0 ptr, by simp [ltrimStep, hget, hc], Nat.zero_le _, by omega, ?_⟩
    rw [List.take_zero, List.drop_zero, List.nil_append, hbytes]

/-- The copying loop moves one byte of the core, or closes the string. -/
theorem ltrimStep_copying (hs : (0 : Byte) ∉ s) {b : Buf n} {str ptr : Nat}
    (h : LtrimInv s rest (.copying b str ptr)) :
    ∃ st, ltrimStep (.copying b str ptr) () = some st ∧ LtrimInv s rest st := by
  rcases h with ⟨hstr, hptr, hbytes⟩
  have hlen := length_takeWhile_add_dropWhile s
  obtain ⟨w, v, hcore, hw⟩ : ∃ w v, s.dropWhile isBlank = w ++ v ∧ w.length = str :=
    ⟨_, _, (List.take_append_drop str _).symm, List.length_take_of_le hstr⟩
  have htake : (s.dropWhile isBlank).take str = w := by
    rw [hcore]
    exact List.take_left' hw
  rw [htake, ← hw] at hbytes
  have hlt : w.length < (s ++ 0 :: rest).length := by
    rw [List.length_append, List.length_cons]
    omega
  have hput (a : Byte) : b.put str a = some (b.set w.length a) := by
    have hsize := b.size
    rw [hbytes, List.length_append, List.length_drop] at hsize
    rw [← hw]
    exact Buf.put_of_lt b a (by omega)
  cases v with
  | nil =>
      have hget : b.bytes[ptr]? = some 0 := by
        rw [hptr, ← hw]
        exact get_at_cursor hbytes (drop_text hcore)
      refine ⟨.finished (b.set w.length 0), by simp [ltrimStep, hget, hput], ?_⟩
      show (b.set w.length 0).bytes = _
      rw [bytes_set_cursor hbytes hlt, hcore, List.append_nil]
  | cons a v =>
      have hget : b.bytes[ptr]? = some a := by
        rw [hptr, ← hw]
        exact get_at_cursor hbytes (drop_text hcore)
      have ha : a ≠ 0 := by
        rintro rfl
        have hmem : (0 : Byte) ∈ s.dropWhile isBlank := by
          rw [hcore]
          exact List.mem_append_right _ List.mem_cons_self
        exact hs ((List.dropWhile_sublist isBlank).subset hmem)
      refine ⟨.copying (b.set w.length a) (str + 1) (ptr + 1), by simp [ltrimStep, hget, ha, hput],
        ?_, by omega, ?_⟩
      · rw [hcore, List.length_append, List.length_cons]
        omega
      · have hnext : (s.dropWhile isBlank).take (str + 1) = w ++ [a] := by
          rw [hcore, List.append_cons]
          exact List.take_left' (by rw [List.length_append, List.length_singleton, hw])
        rw [hnext, bytes_set_cursor hbytes hlt, ← hw, List.append_assoc, List.singleton_append]

/-- Each step goes on with the invariant until `bcl_ltrim` is finished. -/
theorem ltrimStep_inv (hs : (0 : Byte) ∉ s) {st st' : LtrimSt n} (h : LtrimInv s rest st)
    (hstep : ltrimStep st () = some st') : LtrimInv s rest st' := by
  have hsame : ∀ u, ltrimStep st () = some u → LtrimInv s rest u → LtrimInv s rest st' := by
    intro u hu hinv
    rw [hstep] at hu
    cases hu
    exact hinv
  cases st with
  | skipping b ptr =>
      rcases ltrimStep_skipping h with ⟨u, hu, hinv⟩
      exact hsame u hu hinv
  | copying b str ptr =>
      rcases ltrimStep_copying hs h with ⟨u, hu, hinv⟩
      exact hsame u hu hinv
  | finished b => cases hstep

theorem ltrimInv_start {b : Buf n} (hbytes : b.bytes = s ++ 0 :: rest) :
    LtrimInv s rest (.skipping b 0) :=
  ⟨hbytes, Nat.zero_le _⟩

/-- In every state of every run the next access is to the text or its terminator. -/
theorem ltrim_inside (hs : (0 : Byte) ∉ s) {b : Buf n} (hbytes : b.bytes = s ++ 0 :: rest)
    (steps : List Unit) :
    Throughout ltrimStep (LtrimSt.Inside s.length) (.skipping b 0) steps := by
  refine Throughout.mono (P := LtrimInv s rest) (fun st h => h.inside) ?_
  refine throughout_of_along (C := fun _ _ => True) ?_ (ltrimInv_start hbytes)
    (along_of_forall_mem (fun _ _ _ => trivial) _)
  intro st _ st' h _ hstep
  exact ltrimStep_inv hs h hstep

end Ltrim

/-! ## The steps are those of the function -/

section Reaches

variable {n : Nat}

/-- Some number of steps leads from one state to the other. -/
abbrev LtrimReaches (st st' : LtrimSt n) : Prop :=
  Reaches ltrimStep (fun _ => True) st st'

theorem LtrimReaches.single {st st' : LtrimSt n} (h : ltrimStep st () = some st') :
    LtrimReaches st st' :=
  Reaches.single (a := ()) trivial h

theorem ltrimSkip_reaches {b : Buf n} {ptr ptr' : Nat} (h : ltrimSkip b ptr = some ptr') :
    LtrimReaches (.skipping b ptr) (.copying b 0 ptr') := by
  induction ptr using ltrimSkip.induct b with
  | case1 ptr hget =>
      unfold ltrimSkip at h
      split at h
      · cases h
      · rename_i c hsome
        rw [hget] at hsome
        cases hsome
  | case2 ptr c hget hblank ih =>
      rw [ltrimSkip_of_get hget, if_pos hblank] at h
      exact (LtrimReaches.single (by simp [ltrimStep, hget, hblank])).trans (ih h)
  | case3 ptr c hget hblank =>
      rw [ltrimSkip_of_get hget, if_neg hblank] at h
      cases h
      exact LtrimReaches.single (by simp [ltrimStep, hget, hblank])

theorem ltrimCopy_reaches {b b' : Buf n} {str str' ptr : Nat}
    (h : ltrimCopy b str ptr = some (b', str')) :
    ∃ ptr', LtrimReaches (.copying b str ptr) (.copying b' str' ptr') ∧
      b'.bytes[ptr']? = some 0 := by
  induction b, str, ptr using ltrimCopy.induct with
  | case1 b str ptr hget =>
      unfold ltrimCopy at h
      split at h
      · cases h
      · rename_i c hsome
        rw [hget] at hsome
        cases hsome
  | case2 b str ptr hget =>
      rw [ltrimCopy_of_get hget, if_pos rfl] at h
      cases h
      exact ⟨ptr, ⟨[], by simp, rfl⟩, hget⟩
  | case3 b str ptr c hget hc hput =>
      rw [ltrimCopy_of_get hget, if_neg hc, hput] at h
      cases h
  | case4 b str ptr c hget hc b₁ hput ih =>
      rw [ltrimCopy_of_get hget, if_neg hc, hput] at h
      rcases ih h with ⟨ptr', hreach, hzero⟩
      exact ⟨ptr', (LtrimReaches.single (by simp [ltrimStep, hget, hc, hput])).trans hreach, hzero⟩

/-- The steps lead to what `bcl_ltrim` returns. -/
theorem ltrim_reaches {b b' : Buf n} (h : bclLtrim b = some b') :
    LtrimReaches (.skipping b 0) (.finished b') := by
  rcases Option.bind_eq_some_iff.1 h with ⟨ptr, hskip, h⟩
  rcases Option.bind_eq_some_iff.1 h with ⟨⟨b₁, str⟩, hcopy, hput⟩
  rcases ltrimCopy_reaches hcopy with ⟨ptr', hreach, hzero⟩
  have hput' : b₁.put str 0 = some b' := hput
  have hlast : LtrimReaches (.copying b₁ str ptr') (.finished b') :=
    LtrimReaches.single (by simp [ltrimStep, hzero, hput'])
  exact (ltrimSkip_reaches hskip).trans (hreach.trans hlast)

end Reaches

/-! ## Each trim alone -/

section Alone

variable {n : Nat} {s : List Byte}

/-- What `bcl_ltrim` leaves of a text, of its terminator, and of what lies behind. -/
theorem bclLtrim_bytes (b : Buf n) (rest : List Byte) (hbytes : b.bytes = s ++ 0 :: rest)
    (hs : (0 : Byte) ∉ s) :
    ∃ b', bclLtrim b = some b' ∧
      b'.bytes = s.dropWhile isBlank ++
        0 :: (s ++ 0 :: rest).drop ((s.dropWhile isBlank).length + 1) := by
  rcases bclLtrim_spec b rest hbytes hs with ⟨b', hrun, -, -⟩
  rcases ltrim_reaches hrun with ⟨steps, -, hexec⟩
  have hinv : LtrimInv s rest (.finished b') :=
    exec_induct (I := LtrimInv s rest) (fun _ _ _ h hstep => ltrimStep_inv hs h hstep)
      (ltrimInv_start hbytes) hexec
  exact ⟨b', hrun, hinv⟩

/-- A function on strings that works on the string and its terminator alone: what it leaves there is
the same in every array, one that ends with the terminator included, and what lies behind stays. -/
def Confined (f : ∀ {n : Nat}, Buf n → Option (Buf n)) (s : List Byte) : Prop :=
  ∃ image : List Byte, image.length = s.length + 1 ∧
    ∀ {n : Nat} (b : Buf n) (rest : List Byte), b.bytes = s ++ 0 :: rest →
      ∃ b', f b = some b' ∧ b'.bytes = image ++ rest

theorem bclLtrim_confined (hs : (0 : Byte) ∉ s) : Confined bclLtrim s := by
  have hle := List.length_dropWhile_le isBlank s
  refine ⟨s.dropWhile isBlank ++ 0 :: (s ++ [0]).drop ((s.dropWhile isBlank).length + 1), ?_, ?_⟩
  · simp only [List.length_append, List.length_cons, List.length_drop, List.length_nil]
    omega
  · intro n b rest hbytes
    rcases bclLtrim_bytes b rest hbytes hs with ⟨b', hrun, hb'⟩
    refine ⟨b', hrun, ?_⟩
    have hsplit : s ++ 0 :: rest = (s ++ [0]) ++ rest := by simp
    rw [hb', hsplit, List.drop_append_of_le_length (by simpa using hle), List.append_assoc,
      List.cons_append]

theorem bclRtrim_confined (hs : (0 : Byte) ∉ s) : Confined bclRtrim s := by
  have hle := (List.rdropWhile_prefix isBlank s).length_le
  refine ⟨s.rdropWhile isBlank ++
    0 :: List.replicate (s.length - (s.rdropWhile isBlank).length) 0, ?_, ?_⟩
  · simp only [List.length_append, List.length_cons, List.length_replicate]
    omega
  · intro n b rest hbytes
    rcases bclRtrim_bytes b rest hbytes hs with ⟨b', hrun, hb'⟩
    refine ⟨b', hrun, ?_⟩
    rw [hb', List.append_assoc, List.cons_append]

/-- A text without a blank prefix is left as it is. -/
theorem bclLtrim_eq_self {b : Buf n} (h : (0 : Byte) ∈ b.bytes)
    (hstr : b.str.dropWhile isBlank = b.str) : bclLtrim b = some b := by
  rcases eq_cstr_append_zero h with ⟨rest, hrest⟩
  have hbytes : b.bytes = b.str ++ 0 :: rest := hrest
  rcases bclLtrim_bytes b rest hbytes b.zero_not_mem_str with ⟨b', hrun, hb'⟩
  have hsame : b' = b := by
    refine Buf.ext ?_
    rw [hb', hstr, ← List.drop_drop, List.drop_left, List.drop_one, List.tail_cons, ← hbytes]
  rw [hrun, hsame]

/-- A text without a blank suffix is left as it is. -/
theorem bclRtrim_eq_self {b : Buf n} (h : (0 : Byte) ∈ b.bytes)
    (hstr : b.str.rdropWhile isBlank = b.str) : bclRtrim b = some b := by
  rcases eq_cstr_append_zero h with ⟨rest, hrest⟩
  have hbytes : b.bytes = b.str ++ 0 :: rest := hrest
  rcases bclRtrim_bytes b rest hbytes b.zero_not_mem_str with ⟨b', hrun, hb'⟩
  have hsame : b' = b := by
    refine Buf.ext ?_
    rw [hb', hstr, Nat.sub_self, List.replicate_zero, List.nil_append, ← hbytes]
  rw [hrun, hsame]

end Alone

/-! ## Both trims -/

/-- Neither trim finds anything to do. -/
def Settled {n : Nat} (b : Buf n) : Prop :=
  bclLtrim b = some b ∧ bclRtrim b = some b

theorem settled_of_core {n : Nat} {b : Buf n} {s : List Byte} (h : (0 : Byte) ∈ b.bytes)
    (hstr : b.str = trim isBlank s) : Settled b := by
  constructor
  · exact bclLtrim_eq_self h (by rw [hstr, dropWhile_trim])
  · exact bclRtrim_eq_self h (by rw [hstr, rdropWhile_trim])

/-- A second `bcl_ltrim`, or a second `bcl_rtrim`, changes nothing. -/
theorem trims_idempotent {n : Nat} {b : Buf n} (h : (0 : Byte) ∈ b.bytes) :
    (∃ b', bclLtrim b = some b' ∧ bclLtrim b' = some b') ∧
      ∃ b', bclRtrim b = some b' ∧ bclRtrim b' = some b' := by
  rcases eq_cstr_append_zero h with ⟨rest, hrest⟩
  rcases bclLtrim_spec b rest hrest (zero_not_mem_cstr _) with ⟨bl, hl, hlmem, hlstr⟩
  rcases bclRtrim_spec b h with ⟨br, hr, hrmem, hrstr⟩
  constructor
  · exact ⟨bl, hl, bclLtrim_eq_self hlmem (by rw [hlstr, List.dropWhile_idempotent])⟩
  · exact ⟨br, hr, bclRtrim_eq_self hrmem (by rw [hrstr, List.rdropWhile_idempotent])⟩

/-- Either order of the trims leaves the core of the text, which is settled.  Each trim works on the
text and its terminator alone, and while `bcl_ltrim` copies, its write cursor does not pass its read
cursor. -/
theorem trims_compute_core {s : List Byte} (hs : (0 : Byte) ∉ s) :
    ∃ c, (IsCore isBlank s c ∧ ∀ c', IsCore isBlank s c' → c' = c) ∧
      (∀ {n : Nat} (b : Buf n) (rest : List Byte), b.bytes = s ++ 0 :: rest →
        (∃ b₁ b₂, (bclLtrim b).bind bclRtrim = some b₁ ∧ (bclRtrim b).bind bclLtrim = some b₂ ∧
          b₁.str = c ∧ b₂.str = c ∧ Settled b₁ ∧ Settled b₂) ∧
        ((∃ b', bclLtrim b = some b' ∧ bclLtrim b' = some b') ∧
          ∃ b', bclRtrim b = some b' ∧ bclRtrim b' = some b') ∧
        (∃ b', bclLtrim b = some b' ∧ LtrimReaches (.skipping b 0) (.finished b')) ∧
        ∀ steps, Throughout ltrimStep (LtrimSt.Inside s.length) (.skipping b 0) steps) ∧
      Confined bclLtrim s ∧ Confined bclRtrim s := by
  refine ⟨trim isBlank s, ⟨isCore_iff.2 rfl, fun c' h => isCore_iff.1 h⟩, ?_,
    bclLtrim_confined hs, bclRtrim_confined hs⟩
  intro n b rest hbytes
  have hterm : (0 : Byte) ∈ b.bytes := by simp [hbytes]
  have hstr : b.str = s := Buf.str_of_bytes hs rest hbytes
  rcases trims_spec b hterm with ⟨b₁, hrun₁, hterm₁, hstr₁⟩
  rcases trims_back_spec b hterm with ⟨b₀, b₂, hrtrim, hltrim, hterm₂, hstr₂⟩
  rcases bclLtrim_bytes b rest hbytes hs with ⟨b', hrun, -⟩
  rw [hstr] at hstr₁ hstr₂
  refine ⟨⟨b₁, b₂, hrun₁, by rw [hrtrim]; exact hltrim, hstr₁, hstr₂, settled_of_core hterm₁ hstr₁,
    settled_of_core hterm₂ hstr₂⟩, trims_idempotent hterm, ⟨b', hrun, ltrim_reaches hrun⟩, ?_⟩
  intro steps
  exact ltrim_inside hs hbytes steps

/-- The text `" \ta b\r"` in an array of its own. -/
theorem trims_compute_core_sample :
    ∃ b₁ b₂ : Buf 7,
      (bclLtrim ⟨[0x20, 0x09, 0x61, 0x20, 0x62, 0x0d, 0x00], rfl⟩).bind bclRtrim = some b₁ ∧
      (bclRtrim ⟨[0x20, 0x09, 0x61, 0x20, 0x62, 0x0d, 0x00], rfl⟩).bind bclLtrim = some b₂ ∧
      b₁.str = b₂.str := by
  rcases trims_compute_core (s := [0x20, 0x09, 0x61, 0x20, 0x62, 0x0d]) (by decide) with
    ⟨c, -, hruns, -⟩
  rcases (hruns ⟨[0x20, 0x09, 0x61, 0x20, 0x62, 0x0d, 0x00], rfl⟩ [] rfl).1 with
    ⟨b₁, b₂, hrun₁, hrun₂, hstr₁, hstr₂, -⟩
  exact ⟨b₁, b₂, hrun₁, hrun₂, hstr₁.trans hstr₂.symm⟩

end CommServer
