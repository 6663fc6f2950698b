import CommServer.Src.LegacySpec

/-!
# LengthHeader — the number that a peer puts in the header

`process_parse_20160927` reads as many bytes as the header says behind the header in `recv_msg`.  A
number that is negative or too large is rejected too late: the second `recvn` takes a negative number
for a size near 2^32, and stores what comes.  The number -1 is not even rejected, when `recvn` fails.

`guarded_iff` : the header is harmless exactly when its number is not -1, and the number or the bytes
that follow stay within the array and leave a NUL in it.
-/

namespace CommServer
namespace Exchange

open CLib Transition

/-- `msglen`, the number that the eight bytes of a header stand for. -/
def msglenOf (hd : List Byte) : Int :=
  atoi (hd ++ [0])

/-- What `recv_msg` has room for behind the header. -/
abbrev bodyRoom : Nat := maxbufLen - pkgheadLength

/-- In every reception of the header `hd` and of the bytes `body` behind it nothing is stored outside
`recv_msg`, what is parsed holds a NUL, and a negative or oversized number is not parsed. -/
structure Guarded (hd body : List Byte) : Prop where
  inside : ∀ head script,
    receiveFrame { stream := hd ++ body, head := head, body := script } ≠ .fault
  terminated : ∀ head script recvMsg,
    receiveFrame { stream := hd ++ body, head := head, body := script } = .accepted recvMsg →
    (0 : Byte) ∈ recvMsg.bytes
  rejected : msglenOf hd < 0 ∨ bodyRoom < msglenOf hd → ∀ head script recvMsg,
    receiveFrame { stream := hd ++ body, head := head, body := script } ≠ .accepted recvMsg

/-- The number is not that of a failure, it or the bytes that follow are within the room, and when
they fill it there is a NUL among the bytes of the frame. -/
def Contained (hd body : List Byte) : Prop :=
  msglenOf hd ≠ -1 ∧
    ((0 ≤ msglenOf hd ∧ msglenOf hd ≤ bodyRoom) ∨ body.length ≤ bodyRoom) ∧
    (msglenOf hd = bodyRoom → bodyRoom ≤ body.length → (0 : Byte) ∈ hd ++ body.take bodyRoom)

instance (hd body : List Byte) : Decidable (Contained hd body) := by
  unfold Contained
  infer_instance

/-! ## The second `recvn` -/

theorem natAbs_msglenOf_lt {hd : List Byte} (hhd : hd.length = 8) :
    (msglenOf hd).natAbs < 10 ^ 8 := by
  rw [msglenOf, atoi_append_zero]
  exact natAbs_atoi_lt hhd.le (by decide)

/-- A number that is too large or negative is a size beyond the room. -/
theorem bodyRoom_lt_sizeOfInt {msglen : Int} (hsmall : msglen.natAbs < 10 ^ 8)
    (hbad : msglen < 0 ∨ bodyRoom < msglen) : bodyRoom < (sizeOfInt msglen).toNat := by
  have hroom : bodyRoom = 10232 := rfl
  have hmod := toNat_sizeOfInt_eq_emod msglen
  omega

/-- It leads outside only when it and the bytes that come exceed the room. -/
theorem receiveBody_fault {start : Buf maxbufLen} {msglen : Int} {body : List Byte}
    {script : List RecvResult} (h : (receiveBody start msglen body script).2 = some .fault) :
    ¬ (0 ≤ msglen ∧ msglen ≤ bodyRoom) ∧ bodyRoom < body.length := by
  have hhead : pkgheadLength = 8 := rfl
  have hmax : maxbufLen = 10240 := rfl
  have hroom : bodyRoom = 10232 := rfl
  have hsize := toNat_sizeOfInt_lt msglen
  have hmod := toNat_sizeOfInt_eq_emod msglen
  obtain ⟨got, -, hret⟩ := recvn_outcome start pkgheadLength (sizeOfInt msglen) (by decide)
    (by decide) (by omega) body script
  rcases hret _ h with hfail | hread | ⟨-, hover⟩
  · cases hfail
  · cases hread
  · constructor <;> omega

/-- A count is never negative, so the only negative value that comes back is that of a failure. -/
theorem receiveBody_negative {start : Buf maxbufLen} {msglen : Int} {body : List Byte}
    {script : List RecvResult} (hneg : msglen < 0)
    (h : (receiveBody start msglen body script).2 = some (.ret msglen)) : msglen = -1 := by
  have hsize := toNat_sizeOfInt_lt msglen
  obtain ⟨got, -, hret⟩ := recvn_outcome start pkgheadLength (sizeOfInt msglen) (by decide)
    (by decide) (by omega) body script
  rcases hret _ h with hfail | hread | ⟨hfault, -⟩
  · exact RecvEnd.ret.inj hfail
  · have heq : msglen = got := RecvEnd.ret.inj hread
    omega
  · cases hfault

/-! ## The reception -/

section Reception

variable {hd body : List Byte} (hhd : hd.length = 8) {head script : List RecvResult}

include hhd

/-- The second `recvn`, unless the header does not come. -/
theorem receiveFrame_cases (body : List Byte) (head script : List RecvResult) :
    receiveFrame { stream := hd ++ body, head := head, body := script } = .waiting ∨
      receiveFrame { stream := hd ++ body, head := head, body := script } = .rejected ∨
      ∃ start : Buf maxbufLen, (Buf.zeroed maxbufLen).blit 0 hd = some start ∧
        receiveFrame { stream := hd ++ body, head := head, body := script } =
          bodyEnd (msglenOf hd) (receiveBody start (msglenOf hd) body script) := by
  by_cases hwhole : (receiveHead { stream := hd ++ body, head := head, body := script }).2 =
      some (.ret pkgheadLength)
  · exact Or.inr (Or.inr (receiveFrame_eq hhd rfl hwhole))
  · rcases receiveFrame_headless hwhole with hwait | hreject
    · exact Or.inl hwait
    · exact Or.inr (Or.inl hreject)

/-- What is parsed: a count within the room, and as many bytes behind the header; or what a failure
leaves behind a header of -1. -/
theorem accepted_bytes {recvMsg : Buf maxbufLen}
    (h : receiveFrame { stream := hd ++ body, head := head, body := script } = .accepted recvMsg) :
    msglenOf hd = -1 ∨ ∃ n : Nat, msglenOf hd = n ∧ n ≤ bodyRoom ∧ n ≤ body.length ∧
      recvMsg.bytes = hd ++ (body.take n ++ List.replicate (bodyRoom - n) 0) := by
  have hmax : maxbufLen = 10240 := rfl
  have hroom : bodyRoom = 10232 := rfl
  have hsmall := natAbs_msglenOf_lt hhd
  rcases receiveFrame_cases hhd body head script with hwait | hreject | ⟨start, hstart, hrun⟩
  · rw [h] at hwait
    cases hwait
  · rw [h] at hreject
    cases hreject
  · rw [h] at hrun
    rcases bodyEnd_eq_accepted_iff.1 hrun.symm with ⟨hret, hbuf⟩
    by_cases hneg : msglenOf hd < 0
    · exact Or.inl (receiveBody_negative hneg hret)
    · obtain ⟨n, hn⟩ : ∃ n : Nat, msglenOf hd = n := ⟨(msglenOf hd).toNat, by omega⟩
      rw [hn] at hret hbuf
      rcases receiveBody_read (by omega) hret with ⟨hstored, -, hle⟩
      have hlen : (body.take n).length = n := List.length_take_of_le hle
      have hbehind : start.blit (0 + hd.length) (body.take n) = some recvMsg := by
        rw [← hbuf, Nat.zero_add, hhd]
        exact hstored
      -- Both copies are one, at the front of zeros.
      rcases (Buf.blit_eq_some_iff _ _ _ _).1 (Buf.blit_append hstart hbehind) with ⟨hfit, hbytes⟩
      rw [List.length_append, hlen] at hfit hbytes
      refine Or.inr ⟨n, hn, by omega, hle, ?_⟩
      have hrest : maxbufLen - (0 + (hd.length + n)) = bodyRoom - n := by omega
      rw [hbytes, List.take_zero, List.nil_append, Buf.bytes_zeroed, List.drop_replicate, hrest,
        List.append_assoc]

theorem fault_exceeds
    (h : receiveFrame { stream := hd ++ body, head := head, body := script } = .fault) :
    ¬ (0 ≤ msglenOf hd ∧ msglenOf hd ≤ bodyRoom) ∧ bodyRoom < body.length := by
  rcases receiveFrame_cases hhd body head script with hwait | hreject | ⟨start, -, hrun⟩
  · rw [h] at hwait
    cases hwait
  · rw [h] at hreject
    cases hreject
  · rw [h] at hrun
    exact receiveBody_fault (bodyEnd_eq_fault_iff.1 hrun.symm)

theorem guarded_of_contained (h : Contained hd body) : Guarded hd body := by
  rcases h with ⟨hnone, hwithin, hfilled⟩
  refine ⟨?_, ?_, ?_⟩
  · intro head script hfault
    rcases fault_exceeds hhd hfault with ⟨hout, hlong⟩
    rcases hwithin with hin | hshort
    · exact hout hin
    · omega
  · intro head script recvMsg haccept
    rcases accepted_bytes hhd haccept with hfailed | ⟨n, hn, hle, hbody, hbytes⟩
    · exact absurd hfailed hnone
    rw [hbytes]
    by_cases hfull : n = bodyRoom
    · -- All of the room is taken, so the NUL is one that has come.
      have hzero := hfilled (by omega) (by omega)
      rw [hfull, ← List.append_assoc]
      exact List.mem_append_left _ hzero
    · refine List.mem_append_right _ (List.mem_append_right _ ?_)
      exact List.mem_replicate.2 ⟨by omega, rfl⟩
  · intro hbad head script recvMsg haccept
    rcases accepted_bytes hhd haccept with hfailed | ⟨n, hn, hle, -, -⟩
    · exact hnone hfailed
    · omega

end Reception

/-! ## Headers that lead outside -/

section Outside

variable {hd body : List Byte} (hhd : hd.length = 8)

include hhd

theorem receiveHead_atOnce (body : List Byte) (script : List RecvResult) :
    (receiveHead { stream := hd ++ body, head := [.data 8], body := script }).2 =
      some (.ret pkgheadLength) := by
  have hlen : 8 ≤ (hd ++ body).length := by
    rw [List.length_append]
    omega
  exact recvn_atOnce (Buf.zeroed 128) 0 8 (by decide) (by decide) (by decide) hlen

/-- The peer sends one byte more than there is room for, and one `recv` returns them all. -/
theorem overrun (hmsglen : msglenOf hd < 0 ∨ bodyRoom < msglenOf hd)
    (hbody : bodyRoom < body.length) :
    receiveFrame
      { stream := hd ++ body, head := [.data 8], body := [.data (bodyRoom + 1)] } = .fault := by
  have hlarge := bodyRoom_lt_sizeOfInt (natAbs_msglenOf_lt hhd) hmsglen
  have hsize := toNat_sizeOfInt_lt (msglenOf hd)
  have hwhole := receiveHead_atOnce hhd body [.data (bodyRoom + 1)]
  rcases receiveFrame_eq hhd rfl hwhole with ⟨start, -, hrun⟩
  rw [hrun]
  refine bodyEnd_eq_fault_iff.2 ?_
  exact recvn_over start pkgheadLength (sizeOfInt (msglenOf hd)) (by decide) (by omega) hlarge
    (by decide) hbody

/-- The connection is reset behind a header of -1, and the -1 that `recvn` returns is what was asked
for. -/
theorem failure_accepted (hmsglen : msglenOf hd = -1) (body : List Byte) :
    ∃ recvMsg, receiveFrame
      { stream := hd ++ body, head := [.data 8], body := [.failed (.other 104)] } = .accepted recvMsg := by
  have hwhole := receiveHead_atOnce hhd body [.failed (.other 104)]
  rcases receiveFrame_eq hhd rfl hwhole with ⟨start, -, hrun⟩
  have hatoi : atoi (hd ++ [0]) = -1 := hmsglen
  have hfailed := recvn_failed start pkgheadLength (sizeOfInt (-1)) (by decide) (by decide)
    (by decide) body (show Errno.other 104 ≠ .eintr by decide)
  rw [hrun, hatoi]
  exact ⟨_, bodyEnd_eq_accepted_iff.2 ⟨hfailed, rfl⟩⟩

/-- The peer sends as many bytes as there is room for, and one `recv` returns them all. -/
theorem filled (hmsglen : msglenOf hd = bodyRoom) (hbody : bodyRoom ≤ body.length) :
    ∃ recvMsg, receiveFrame
        { stream := hd ++ body, head := [.data 8], body := [.data bodyRoom] } = .accepted recvMsg ∧
      recvMsg.bytes = hd ++ body.take bodyRoom := by
  have hatoi : atoi (hd ++ [0]) = (bodyRoom : Nat) := hmsglen
  have hsize : (sizeOfInt (bodyRoom : Nat)).toNat = bodyRoom := toNat_sizeOfInt (by decide)
  have hwhole := receiveHead_atOnce hhd body [.data bodyRoom]
  rcases receiveFrame_eq hhd rfl hwhole with ⟨start, -, hrun⟩
  have hread := recvn_atOnce start pkgheadLength (sizeOfInt (bodyRoom : Nat)) (by decide)
    (by decide) (by decide) (hsize ▸ hbody)
  rw [hsize] at hread
  have haccept : receiveFrame { stream := hd ++ body, head := [.data 8], body := [.data bodyRoom] } =
      .accepted (receiveBody start (bodyRoom : Nat) body [.data bodyRoom]).1.buf := by
    rw [hrun, hatoi]
    exact bodyEnd_eq_accepted_iff.2 ⟨hread, rfl⟩
  refine ⟨_, haccept, ?_⟩
  rcases accepted_bytes hhd haccept with hfailed | ⟨n, hn, -, -, hbytes⟩
  · omega
  · have hfull : n = bodyRoom := by omega
    rw [hbytes, hfull, Nat.sub_self, List.replicate_zero, List.append_nil]

theorem contained_of_guarded (h : Guarded hd body) : Contained hd body := by
  refine ⟨?_, ?_, ?_⟩
  · intro hmsglen
    rcases failure_accepted hhd hmsglen body with ⟨recvMsg, haccept⟩
    exact h.rejected (by omega) _ _ recvMsg haccept
  · by_contra hover
    rw [not_or, not_le] at hover
    exact h.inside _ _ (overrun hhd (by omega) hover.2)
  · intro hmsglen hbody
    rcases filled hhd hmsglen hbody with ⟨recvMsg, haccept, hbytes⟩
    rw [← hbytes]
    exact h.terminated _ _ recvMsg haccept

end Outside

/-- A header is harmless in every reception exactly when its number is not -1, and the number or what
follows stays within `recv_msg` and leaves it terminated. -/
theorem guarded_iff {hd : List Byte} (hhd : hd.length = 8) (body : List Byte) :
    Guarded hd body ↔ Contained hd body :=
  ⟨contained_of_guarded hhd, guarded_of_contained hhd⟩

/-- Nothing has to follow `-0000001` for it to do harm. -/
example : ¬ Contained [0x2d, 0x30, 0x30, 0x30, 0x30, 0x30, 0x30, 0x31] [] := by
  decide

/-- The header `00000004` before `abcd`. -/
theorem guarded_iff_sample :
    Guarded [0x30, 0x30, 0x30, 0x30, 0x30, 0x30, 0x30, 0x34] [0x61, 0x62, 0x63, 0x64] :=
  (guarded_iff (by decide) _).2 (by decide)

/-- `00010233`, and as many bytes behind it. -/
theorem long_header_overruns : ¬ ∀ hd body, hd.length = 8 → Guarded hd body := by
  intro hall
  let hd : List Byte := [0x30, 0x30, 0x30, 0x31, 0x30, 0x32, 0x33, 0x33]
  let body : List Byte := List.replicate 10233 dollar
  have hmsglen : msglenOf hd = 10233 := by decide
  have hbody : body.length = 10233 := List.length_replicate
  have hguarded : Guarded hd body := hall hd body rfl
  exact hguarded.inside _ _
    (overrun rfl (by rw [hmsglen]; decide) (by rw [hbody]; decide))

end Exchange
end CommServer
