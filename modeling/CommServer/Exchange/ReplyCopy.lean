import CommServer.Src.ProcessParseSpec

/-!
# ReplyCopy — where `comm_tux_tpcall` writes the reply

The length that `comm_tux_tpcall` hands to `strncpy` is a `long` that `tpcall` was to write.  It is
checked from above only, as a signed number, and used as a `size_t`.

`replyInside_iff` : the copy stays below the last byte of the caller's array, and failures leave the
array alone, exactly when `recvlen` is not negative where `tpcall` is reached.
-/

namespace CommServer
namespace Exchange

open CLib

/-- However `comm_tux_tpcall` is called, it writes nothing from index `MAXBUF_LEN-1` on, so that a
zeroed array stays terminated, and a failure leaves the array as it was. -/
def ReplyInside (o : TuxOutcome) : Prop :=
  ∀ (servicename requestBuf envstr : List Byte) (responseBuf : Buf maxbufLen),
    (0 : Byte) ∈ requestBuf →
    ∃ t, commTuxTpcall servicename requestBuf responseBuf envstr o = some t ∧
      t.responseBuf.bytes.drop (maxbufLen - 1) = responseBuf.bytes.drop (maxbufLen - 1) ∧
      (responseBuf = Buf.zeroed maxbufLen → (0 : Byte) ∈ t.responseBuf.bytes) ∧
      (t.ret = eFail → t.responseBuf = responseBuf)

/-- The zero in the last byte of an array that is unchanged from there on. -/
theorem zero_mem_of_drop_eq {b : Buf maxbufLen}
    (h : b.bytes.drop (maxbufLen - 1) = (Buf.zeroed maxbufLen).bytes.drop (maxbufLen - 1)) :
    (0 : Byte) ∈ b.bytes := by
  refine List.mem_of_mem_drop (i := maxbufLen - 1) ?_
  rw [h, Buf.bytes_zeroed, List.drop_replicate]
  exact List.mem_replicate.2 ⟨by decide, rfl⟩

/-- Copying fewer bytes than `i` leaves the array alone from `i` on. -/
theorem drop_of_strncpy {k : Nat} {dst dst' : Buf k} {src : List Byte} {n i : Nat}
    (h : strncpy dst src n = some dst') (hi : n ≤ i) : dst'.bytes.drop i = dst.bytes.drop i := by
  rcases (strncpy_eq_some_iff dst dst' src n).1 h with ⟨-, hbytes⟩
  have hlen : (strncpyBytes src n).length ≤ i := by
    rw [length_strncpyBytes]
    exact hi
  rw [hbytes, List.drop_append, List.drop_eq_nil_of_le hlen, List.nil_append,
    length_strncpyBytes, List.drop_drop]
  congr 1
  omega

theorem replyInside_of_failure {o : TuxOutcome} (hout : ¬ (o.Reached ∧ o.Fits)) :
    ReplyInside o := by
  intro servicename requestBuf envstr responseBuf hterm
  rcases commTuxTpcall_fail servicename envstr responseBuf hterm hout with ⟨calls, hrun⟩
  refine ⟨_, hrun, rfl, fun hzero => ?_, fun _ => rfl⟩
  exact zero_mem_of_drop_eq (congrArg (fun b => b.bytes.drop (maxbufLen - 1)) hzero)

theorem replyInside_of_copy {o : TuxOutcome} (hreach : o.Reached) (hfits : o.Fits)
    (hpos : 0 ≤ o.recvlen.toInt) : ReplyInside o := by
  intro servicename requestBuf envstr responseBuf hterm
  have hmax : maxbufLen = 10240 := rfl
  have hfits' : o.recvlen.toInt ≤ (maxbufLen : Int) - 100 := hfits
  have hconv := toNat_toUInt64_eq o.recvlen
  rw [if_pos hpos] at hconv
  have hsize := o.reply.size
  rcases commTuxTpcall_copy servicename envstr responseBuf hterm hreach hfits with ⟨calls, hrun⟩
  -- The array and the reply are both large enough.
  have hcopy : ∃ b, strncpy responseBuf o.reply.bytes o.recvlen.toUInt64.toNat = some b := by
    refine Option.ne_none_iff_exists'.1 fun hnone => ?_
    rcases (strncpy_eq_none_iff _ _ _).1 hnone with hlong | ⟨hlong, -⟩ <;> omega
  rcases hcopy with ⟨b, hb⟩
  have hdrop : b.bytes.drop (maxbufLen - 1) = responseBuf.bytes.drop (maxbufLen - 1) :=
    drop_of_strncpy hb (by omega)
  rw [hb] at hrun
  refine ⟨_, hrun, hdrop, fun hzero => ?_, fun hfail => ?_⟩
  · exact zero_mem_of_drop_eq (hzero ▸ hdrop)
  · exact absurd hfail (by simp [eOk, eFail])

/-- A negative length is a copy that does not end inside the array. -/
theorem not_replyInside_of_negative {o : TuxOutcome} (hreach : o.Reached)
    (hneg : o.recvlen.toInt < 0) : ¬ ReplyInside o := by
  intro hinside
  have hmax : maxbufLen = 10240 := rfl
  have hfits : o.Fits := by
    unfold TuxOutcome.Fits
    omega
  have hterm : (0 : Byte) ∈ [(0 : Byte)] := List.mem_singleton.2 rfl
  rcases hinside [0] [0] [0] (Buf.zeroed maxbufLen) hterm with ⟨t, hrun, -⟩
  rcases commTuxTpcall_copy [0] [0] (Buf.zeroed maxbufLen) hterm hreach hfits with ⟨calls, hcopy⟩
  rw [hrun, strncpy_reply_negative hneg] at hcopy
  cases hcopy

/-- The reply stays inside the caller's array exactly when `tpcall` is not reached, or leaves no
negative length. -/
theorem replyInside_iff (o : TuxOutcome) :
    ReplyInside o ↔ (o.Reached → 0 ≤ o.recvlen.toInt) := by
  constructor
  · intro hinside hreach
    by_contra hneg
    exact not_replyInside_of_negative hreach (by omega) hinside
  · intro hpos
    by_cases hout : o.Reached ∧ o.Fits
    · exact replyInside_of_copy hout.1 hout.2 (hpos hout.1)
    · exact replyInside_of_failure hout

/-- `tpcall` fails, and the value on the stack is `-1`. -/
theorem negative_recvlen_overruns : ¬ ∀ o, ReplyInside o := by
  intro hall
  have hreach : (TuxOutcome.returning (-1) (-1) []).Reached := by decide
  exact not_replyInside_of_negative hreach (by decide) (hall _)

end Exchange
end CommServer
