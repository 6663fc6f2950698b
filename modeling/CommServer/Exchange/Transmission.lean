import CommServer.Src.ProcessParseSpec

/-!
# Transmission — what `send_nbytes` has sent, and what it reports

`sendNbytes_exact` is about every script of answers that `send` can give: at every moment the peer has
got exactly the prefix of the buffer that `sended` counts, the loop ends unless it is interrupted for
ever, and what it returns tells whether the whole of `buf[0..len)` went out.

`processParse_eOk_iff` carries that to the caller: `process_parse` returns `E_OK` exactly when the
connection has accepted the whole response.
-/

namespace CommServer
namespace Exchange

open CLib Transition

/-! ## `send_nbytes` -/

/-- An interrupted `send`. -/
def isEintr (r : SendResult) : Bool :=
  r = .failed .eintr

/-- A `send` accepts at least one byte, or fails. -/
def AcceptsSome : SendResult → Prop
  | .accepted n => 1 ≤ n
  | .failed _ => True

section Send

variable {buf : List Byte} {len : Nat}

/-- A round goes on with a part accepted or after an interruption, or ends the loop. -/
theorem sendRound_progress (hlen : len ≤ buf.length) {s : SendSt} {r : SendResult}
    (hs : SendInv buf len s) (hexit : (sendLoop buf).exit s = none)
    (hr : AcceptsSome r) :
    (∃ s', (sendLoop buf).round s r = .again s' ∧ SendInv buf len s' ∧
        s'.left + (if isEintr r then 0 else 1) ≤ s.left) ∨
      ∃ s' v, (sendLoop buf).round s r = .done s' v := by
  have hleft := sendLoop_exit_eq_none_iff.1 hexit
  cases r with
  | failed e =>
      by_cases he : e = .eintr
      · have hround : sendRound buf s (.failed e) = .again s := by simp [sendRound, he]
        exact .inl ⟨s, hround, hs, by simp [isEintr, he]⟩
      · exact .inr ⟨s, -1, by simp [sendLoop, sendRound, he]⟩
  | accepted n =>
      have hn : 1 ≤ n := hr
      have hcount := hs.count
      have hchunk : (sendChunk buf s n).length = min n s.left := by
        simp only [sendChunk, List.length_take, List.length_drop]
        omega
      have hround : sendRound buf s (.accepted n) =
          .again
            { left := s.left - min n s.left
              sended := s.sended + min n s.left
              wire := s.wire ++ sendChunk buf s n } := by
        simp only [sendRound, hchunk]
      refine .inl ⟨_, hround, sendRound_inv hlen hs hround, ?_⟩
      simp only [isEintr, reduceCtorEq, decide_false, Bool.false_eq_true, if_false]
      omega

/-- A failure leaves something unsent. -/
theorem sendNbytes_failed (hlen : len ≤ buf.length) (script : List SendResult)
    (h : (sendNbytes buf len script).2 = some (-1)) :
    (sendNbytes buf len script).1.sended < len := by
  have hrun := EventLoop.run_induct (L := sendLoop buf) (I := SendInv buf len)
    (Q := fun s (v : Int) => v = -1 → s.sended < len) ?_ ?_ ?_ ?_ (sendInit len) script
    (sendInit_inv buf len)
  · exact hrun.2 _ h rfl
  · -- The loop condition does not give a negative value.
    intro s v _ hexit hv
    have hsome := (sendLoop_exit_eq_some_iff.1 hexit).2
    omega
  · intro s r s' hs _ hround
    exact sendRound_inv hlen hs hround
  · intro s r s' v hs hexit hround
    have hcount := hs.count
    have hleft := sendLoop_exit_eq_none_iff.1 hexit
    have hsame : s' = s := (sendRound_failed hround).1
    refine ⟨hsame ▸ hs, fun _ => ?_⟩
    rw [hsame]
    omega
  · intro s r s' _ _ hround
    exact absurd hround (sendRound_ne_waiting s s' r)

/-- A return value of `send_nbytes` tells what went out. -/
theorem sendNbytes_returned (hlen : len ≤ buf.length) {script : List SendResult} {v : Int}
    (hv : (sendNbytes buf len script).2 = some v) :
    (v = len ∧ (sendNbytes buf len script).1.wire = buf.take len) ∨
      (v = -1 ∧ ∃ k < len, (sendNbytes buf len script).1.wire = buf.take k) := by
  rcases sendNbytes_spec hlen script with ⟨hinv, hret⟩
  rcases hret v hv with ⟨hvlen, hall⟩ | hfail
  · exact .inl ⟨hvlen, by rw [hinv.wire, hall]⟩
  · subst hfail
    exact .inr ⟨rfl, _, sendNbytes_failed hlen script hv, hinv.wire⟩

/-- While `send_nbytes` has not returned, something is unsent. -/
theorem sendNbytes_pending (hlen : len ≤ buf.length) {script : List SendResult}
    (h : (sendNbytes buf len script).2 = none) :
    ∃ k < len, (sendNbytes buf len script).1.wire = buf.take k := by
  have hinv : SendInv buf len (sendNbytes buf len script).1 := (sendNbytes_spec hlen script).1
  have hexit := EventLoop.exit_of_run_none (L := sendLoop buf)
    (fun s r s' => sendRound_ne_waiting s s' r) (sendInit len) script h
  have hleft : 0 < (sendNbytes buf len script).1.left := sendLoop_exit_eq_none_iff.1 hexit
  have hcount := hinv.count
  exact ⟨_, by omega, hinv.wire⟩

/-- Enough answers that are not interruptions end the loop. -/
theorem sendNbytes_ends (hlen : len ≤ buf.length) {ω : Nat → SendResult}
    (hω : ∀ i, AcceptsSome (ω i)) {M : Nat} (hM : ∀ i, M ≤ i → ω i ≠ .failed .eintr) :
    ∃ N v, (sendNbytes buf len (EventLoop.answers ω N)).2 = some v := by
  have hzero : ∀ s, SendInv buf len s → s.left = 0 → ∃ v, (sendLoop buf).exit s = some v := by
    intro s _ hleft
    exact ⟨_, sendLoop_exit_eq_some_iff.2 ⟨by omega, rfl⟩⟩
  have hidle : ∀ i, M ≤ i → isEintr (ω i) = false := by
    intro i hi
    simpa [isEintr] using hM i hi
  exact EventLoop.run_ends_of_eventually hzero
    (fun s r hs hexit hr => sendRound_progress hlen hs hexit hr) _ (sendInit_inv buf len) hω hidle

end Send

/-! ## `process_parse` -/

/-- The response that is sent is as long as `process_parse` says. -/
theorem sendlen_of_formatResponse {ret : Int} {tranCode : Buf 64} {responseData : Buf maxbufLen}
    {resp : Response} (h : formatResponse ret tranCode responseData = some resp) :
    strlen resp.sendMsg.bytes = some resp.sendlen := by
  simp only [formatResponse, Option.bind_eq_bind, Option.bind_eq_some_iff] at h
  rcases h with ⟨-, -, respCode, -, sendlen, hlen, hresp⟩
  cases hresp
  exact hlen

/-- `process_parse` returns only behind the response. -/
theorem parseReceived_cases (cfg : CommSvrSocket) (recvMsg : Buf maxbufLen) (o : TuxOutcome)
    (tx : List SendResult) :
    ((parseReceived cfg recvMsg o tx).response = none ∧
        (parseReceived cfg recvMsg o tx).ret = none) ∨
      ∃ run resp, strlen resp.sendMsg.bytes = some resp.sendlen ∧
        parseReceived cfg recvMsg o tx = sendResponse run resp tx := by
  cases hreq : parseRequest recvMsg with
  | none => simp [parseReceived, exchange, hreq, ParseRun.idle]
  | some req =>
      cases hcall : commTuxTpcall req.tranCode.bytes req.requestData.bytes (Buf.zeroed maxbufLen)
          cfg.tuxEnvstr.bytes o with
      | none => simp [parseReceived, exchange, hreq, hcall, ParseRun.idle]
      | some t =>
          cases hresp : formatResponse t.ret req.tranCode t.responseBuf with
          | none => simp [parseReceived, exchange, hreq, hcall, hresp, ParseRun.idle]
          | some resp =>
              right
              refine ⟨{ ParseRun.idle with request := some req, tux := some t }, resp,
                sendlen_of_formatResponse hresp, ?_⟩
              simp [parseReceived, exchange, hreq, hcall, hresp]

/-- `E_OK` says that all of the response was accepted. -/
theorem sendResponse_eOk_iff (run : ParseRun) {resp : Response} (tx : List SendResult)
    (hsendlen : strlen resp.sendMsg.bytes = some resp.sendlen) :
    (sendResponse run resp tx).ret = some eOk ↔
      (sendResponse run resp tx).sent = resp.sendMsg.str := by
  have hterm : (0 : Byte) ∈ resp.sendMsg.bytes := by
    rw [← strlen_isSome_iff, hsendlen]
    rfl
  have hlen : resp.sendlen = resp.sendMsg.str.length :=
    Option.some.inj (hsendlen.symm.trans (strlen_of_mem hterm))
  have hpre : resp.sendMsg.str <+: resp.sendMsg.bytes := cstr_prefix _
  have hwhole : resp.sendMsg.bytes.take resp.sendlen = resp.sendMsg.str := by
    rw [hlen]
    exact (List.prefix_iff_eq_take.1 hpre).symm
  have hle : resp.sendlen ≤ resp.sendMsg.bytes.length := by
    rw [hlen]
    exact hpre.length_le
  -- A part that is not the whole is shorter.
  have hpart : ∀ k < resp.sendlen, resp.sendMsg.bytes.take k ≠ resp.sendMsg.str := by
    intro k hk heq
    have hlens := congrArg List.length heq
    rw [List.length_take] at hlens
    omega
  simp only [sendResponse]
  cases hret : (sendNbytes resp.sendMsg.bytes resp.sendlen tx).2 with
  | none =>
      rcases sendNbytes_pending hle hret with ⟨k, hk, hwire⟩
      rw [hwire]
      simp [hpart k hk]
  | some v =>
      rcases sendNbytes_returned hle hret with ⟨hv, hwire⟩ | ⟨hv, k, hk, hwire⟩
      · rw [hwire, hwhole]
        simp [hv]
      · have hne : ¬ ((-1 : Int) = resp.sendlen) := by omega
        rw [hwire, hv]
        simp [hpart k hk, hne, eFail, eOk]

/-- `process_parse` returns `E_OK` exactly when the connection has accepted its whole response. -/
theorem processParse_eOk_iff (cfg : CommSvrSocket) (rx : Reception) (o : TuxOutcome)
    (tx : List SendResult) :
    (processParse cfg rx o tx).ret = some eOk ↔
      ∃ resp, (processParse cfg rx o tx).response = some resp ∧
        (processParse cfg rx o tx).sent = resp.sendMsg.str := by
  have hreceived (recvMsg : Buf maxbufLen) : (parseReceived cfg recvMsg o tx).ret = some eOk ↔
      ∃ resp, (parseReceived cfg recvMsg o tx).response = some resp ∧
        (parseReceived cfg recvMsg o tx).sent = resp.sendMsg.str := by
    rcases parseReceived_cases cfg recvMsg o tx with ⟨hresp, hret⟩ | ⟨run, resp, hlen, hrun⟩
    · simp [hresp, hret]
    · rw [hrun, sendResponse_eOk_iff run tx hlen]
      simp [sendResponse]
  cases hend : (receive cfg rx).2 with
  | none => simp [processParse, hend, ParseRun.idle]
  | some fin =>
      cases fin with
      | fault => simp [processParse, hend, ParseRun.idle]
      | ret v =>
          simp only [processParse, hend]
          exact hreceived _

/-- `send_nbytes` transmits exactly the prefix it reports: at every moment of every script, at the
end of every script that is not interrupted for ever, and by what it returns; and so `process_parse`
returns `E_OK` exactly when the whole response was accepted. -/
theorem sendNbytes_exact {buf : List Byte} {len : Nat} (hlen : len ≤ buf.length) :
    (∀ script, (sendNbytes buf len script).1.sended ≤ len ∧
        (sendNbytes buf len script).1.wire =
          buf.take (sendNbytes buf len script).1.sended) ∧
      (∀ ω : Nat → SendResult, (∀ i, AcceptsSome (ω i)) →
        (∃ M, ∀ i, M ≤ i → ω i ≠ .failed .eintr) →
        ∃ N v, (sendNbytes buf len (EventLoop.answers ω N)).2 = some v) ∧
      (∀ script v, (sendNbytes buf len script).2 = some v →
        (v = len ∧ (sendNbytes buf len script).1.wire = buf.take len) ∨
          (v = -1 ∧ ∃ k < len, (sendNbytes buf len script).1.wire = buf.take k)) ∧
      ∀ cfg rx o tx, (processParse cfg rx o tx).ret = some eOk ↔
        ∃ resp, (processParse cfg rx o tx).response = some resp ∧
          (processParse cfg rx o tx).sent = resp.sendMsg.str := by
  refine ⟨fun script => ?_, fun ω hω hfin => ?_, fun script v hv => sendNbytes_returned hlen hv, ?_⟩
  · rcases sendNbytes_spec hlen script with ⟨hinv, -⟩
    have hcount := hinv.count
    exact ⟨by omega, hinv.wire⟩
  · rcases hfin with ⟨M, hM⟩
    exact sendNbytes_ends hlen hω hM
  · intro cfg rx o tx
    exact processParse_eOk_iff cfg rx o tx

theorem sendNbytes_exact_sample :
    ∃ N v, (sendNbytes (ascii "0$$") 3
      (EventLoop.answers (fun i => if i < 2 then .failed .eintr else .accepted 1) N)).2 = some v := by
  have hlen : 3 ≤ (ascii "0$$").length := by decide
  refine (sendNbytes_exact hlen).2.1 _ (fun i => ?_) ⟨2, fun i hi => ?_⟩
  · by_cases hi : i < 2 <;> simp [hi, AcceptsSome]
  · simp [Nat.not_lt.2 hi]

end Exchange
end CommServer
