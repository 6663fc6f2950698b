import CommServer.CLib.Stdio
import CommServer.LibSrc.SocketSpec

/-!
# SockCli — the test client `sim/sock_cli/sock_cli.c`

* `readFile`     : `read_file`, which gathers a file in `sendbuf` piece by piece;
* `readFile_iff` : which files `sendbuf` can hold.

`main` writes `sendbuf` once and reads the answer with `readn`, which is `recvn` of `Socket`; it is a
party of `Dialogue`.
-/

namespace CommServer
namespace Sim

open CLib

/-- `MAXLINE`, the size of `sendbuf`, `buf` and `msg_tmp`. -/
def maxline : Nat := 1024

/-! ## `read_file` -/

/-- The loop of `read_file(fp, sndmsg)`, where `stream` is left of the file. -/
def readFileLoop (sndmsg : Buf maxline) (stream : List Byte) : Option (Buf maxline) :=
  match stream with
  -- `fgets` returns `NULL`.
  | [] => some sndmsg
  | c :: rest => do
      let msgTmp ← fgets (Buf.zeroed maxline) (c :: rest)
      let sndmsg ← strcat sndmsg msgTmp.bytes
      readFileLoop sndmsg ((c :: rest).drop (fgetsPiece maxline (c :: rest)).length)
termination_by stream.length
decreasing_by
  have hpos : 0 < (fgetsPiece maxline (c :: rest)).length :=
    length_takeLine_pos (maxline - 2) c rest
  simp only [List.length_drop, List.length_cons]
  omega

/-- `read_file(fp, sendbuf)`, into the cleared `sendbuf` of `main`. -/
def readFile (file : List Byte) : Option (Buf maxline) :=
  readFileLoop (Buf.zeroed maxline) file

/-- What `strcat` takes of the pieces of a file: each up to its first NUL. -/
def fileText (file : List Byte) : List Byte :=
  ((pieces (maxline - 2) file).map cstr).flatten

/-- A file without a NUL is taken whole, however long its lines are. -/
theorem fileText_eq_self {file : List Byte} (h : (0 : Byte) ∉ file) : fileText file = file := by
  induction hm : file.length using Nat.strongRecOn generalizing file with
  | ind m ih =>
      cases file with
      | nil => simp [fileText]
      | cons c rest =>
          have hpos := length_takeLine_pos (maxline - 2) c rest
          have hpre := takeLine_isPrefix (maxline - 2 + 1) (c :: rest)
          have hpiece : (0 : Byte) ∉ takeLine (maxline - 2 + 1) (c :: rest) :=
            fun h0 => h (hpre.subset h0)
          have hrest : fileText ((c :: rest).drop (takeLine (maxline - 2 + 1) (c :: rest)).length) =
              (c :: rest).drop (takeLine (maxline - 2 + 1) (c :: rest)).length := by
            refine ih _ ?_ (fun h0 => h (List.mem_of_mem_drop h0)) rfl
            simp only [List.length_drop, List.length_cons] at hm ⊢
            omega
          have hsplit : fileText (c :: rest) = takeLine (maxline - 2 + 1) (c :: rest) ++
              fileText ((c :: rest).drop (takeLine (maxline - 2 + 1) (c :: rest)).length) := by
            rw [fileText, pieces, List.map_cons, List.flatten_cons, cstr_eq_self hpiece]
            rfl
          rw [hsplit, hrest]
          exact (List.prefix_iff_eq_append.1 hpre)

/-- What is gathered already and what is left of the file must fit together. -/
theorem readFileLoop_spec (sndmsg : Buf maxline) (hz : (0 : Byte) ∈ sndmsg.bytes) (file : List Byte) :
    ((sndmsg.str ++ fileText file).length < maxline →
      ∃ b, readFileLoop sndmsg file = some b ∧ b.str = sndmsg.str ++ fileText file ∧
        (0 : Byte) ∈ b.bytes) ∧
    (¬ (sndmsg.str ++ fileText file).length < maxline → readFileLoop sndmsg file = none) := by
  induction hm : file.length using Nat.strongRecOn generalizing file sndmsg with
  | ind m ih =>
      cases file with
      | nil =>
          have hlt := Buf.length_str_lt hz
          constructor
          · intro _
            exact ⟨sndmsg, by rw [readFileLoop], by simp [fileText], hz⟩
          · intro hover
            exact absurd (by simpa [fileText] using hlt) hover
      | cons c rest =>
          let piece := fgetsPiece maxline (c :: rest)
          let next := (c :: rest).drop piece.length
          rcases fgets_spec (by decide) (Buf.zeroed maxline) (c :: rest) with ⟨msgTmp, hget, hterm, hstr⟩
          have hcut : cstr msgTmp.bytes = cstr piece := hstr
          have hsplit : fileText (c :: rest) = cstr piece ++ fileText next := by
            rw [fileText, pieces, List.map_cons, List.flatten_cons]
            rfl
          have hnext : next.length < m := by
            have hpos : 0 < piece.length := length_takeLine_pos (maxline - 2) c rest
            simp only [next, List.length_drop, List.length_cons] at hm ⊢
            omega
          have hstep : readFileLoop sndmsg (c :: rest) =
              (strcat sndmsg msgTmp.bytes).bind fun b => readFileLoop b next := by
            rw [readFileLoop, hget]
            rfl
          rcases strcat_spec hz hterm with ⟨hfits, hover⟩
          rw [hcut] at hfits hover
          rw [hstep, hsplit, ← List.append_assoc]
          by_cases hroom : sndmsg.str.length + (cstr piece).length < maxline
          · rcases hfits hroom with ⟨b, hb, hbstr, hbterm⟩
            rw [hb, Option.bind_some, ← hbstr]
            exact ih next.length hnext b hbterm next rfl
          · -- The first piece that does not fit ends the gathering.
            refine ⟨fun hshort => absurd ?_ hroom, fun _ => by rw [hover hroom, Option.bind_none]⟩
            simp only [List.length_append] at hshort
            omega

/-- `read_file` leaves the file in `sendbuf`, its lines joined again, exactly when it has a byte less
than `sendbuf`; any longer file leads outside the array. -/
theorem readFile_iff {file text : List Byte} (hfile : (0 : Byte) ∉ file) :
    (∃ b, readFile file = some b ∧ b.str = text) ↔ file.length < maxline ∧ text = file := by
  have hz : (0 : Byte) ∈ (Buf.zeroed maxline).bytes := by
    apply Buf.zero_mem_of_length_str_lt
    rw [Buf.str_zeroed]
    decide
  have hspec := readFileLoop_spec (Buf.zeroed maxline) hz file
  rw [Buf.str_zeroed, List.nil_append, fileText_eq_self hfile] at hspec
  constructor
  · rintro ⟨b, hb, rfl⟩
    by_cases hlen : file.length < maxline
    · rcases hspec.1 hlen with ⟨b', hb', hstr, -⟩
      have hsame : b = b' := Option.some.inj (hb.symm.trans hb')
      exact ⟨hlen, hsame ▸ hstr⟩
    · rw [readFile, hspec.2 hlen] at hb
      cases hb
  · rintro ⟨hlen, rfl⟩
    rcases hspec.1 hlen with ⟨b, hb, hstr, -⟩
    exact ⟨b, hb, hstr⟩

/-- Two lines, of which the second does not end. -/
theorem readFile_lines : ∃ b, readFile [0x31, 0x0a, 0x32] = some b ∧ b.str = [0x31, 0x0a, 0x32] :=
  (readFile_iff (by decide)).2 ⟨by decide, rfl⟩

end Sim
end CommServer
