import CommServer.Src.ProcessMainSpec

/-!
# Moves — what a connection child can do

One constructor of `ChildMove` for each way on that `childStep` has, with what must hold for it.  What is
proved of all steps of a child is proved by cases on them.

* `move_of_childStep` : there are no other steps.
-/

namespace CommServer

open CLib Transition

/-- A step of a child, and what comes of it. -/
inductive ChildMove (cfg : CommSvrSocket) (s : Child) : ChildAct → Child → Prop
  | portFound (hpc : s.pc = .start) : ChildMove cfg s (.localPort true) { s with pc := .portKnown }
  | portMissing (hpc : s.pc = .start) :
      ChildMove cfg s (.localPort false) { s with pc := .mainReturned (-1) }
  | setAlarm (hpc : s.pc = .portKnown) :
      ChildMove cfg s .go { s with pc := .alarmSet, armed := cfg.waterTimeout ≠ 0 }
  | enter (errno : Errno) (rcvbuf : SockoptResult) (stream : List Byte) (hpc : s.pc = .alarmSet) :
      ChildMove cfg s (.enter errno rcvbuf stream)
        { s with
          pc := .receiving (bclGetrcvbuflen rcvbuf)
            (recvInit (Buf.zeroed maxbufLen) maxbufLen
              { errno := errno, rcvbuf := rcvbuf, stream := stream, rounds := [] }) }
  -- `recv_nbytes`
  | recvAgain (r : ReadRound) (rBufLen : Int) (st st' : RecvSt maxbufLen)
      (hpc : s.pc = .receiving rBufLen st) (hleft : 0 < st.left)
      (hround : recvRound (cfg.waterTimeout.tdiv 10) rBufLen st r = .again st' ∨
        recvRound (cfg.waterTimeout.tdiv 10) rBufLen st r = .waiting st') :
      ChildMove cfg s (.recv r) { s with pc := .receiving rBufLen st' }
  | recvReturns (r : ReadRound) (rBufLen : Int) (st st' : RecvSt maxbufLen) (v : Int)
      (hpc : s.pc = .receiving rBufLen st) (hleft : 0 < st.left)
      (hround : recvRound (cfg.waterTimeout.tdiv 10) rBufLen st r = .done st' (.ret v)) :
      ChildMove cfg s (.recv r) { s with pc := .received st'.buf }
  | recvFaults (r : ReadRound) (rBufLen : Int) (st st' : RecvSt maxbufLen)
      (hpc : s.pc = .receiving rBufLen st) (hleft : 0 < st.left)
      (hround : recvRound (cfg.waterTimeout.tdiv 10) rBufLen st r = .done st' .fault) :
      ChildMove cfg s (.recv r) { s with pc := .faulted }
  | recvFull (rBufLen : Int) (st : RecvSt maxbufLen) (hpc : s.pc = .receiving rBufLen st)
      (hleft : st.left = 0) : ChildMove cfg s .go { s with pc := .received st.buf }
  -- `process_parse` up to its response
  | parses (recvMsg : Buf maxbufLen) (req : Request) (hpc : s.pc = .received recvMsg)
      (hreq : parseRequest recvMsg = some req) : ChildMove cfg s .go { s with pc := .calling req }
  | parseFaults (recvMsg : Buf maxbufLen) (hpc : s.pc = .received recvMsg)
      (hreq : parseRequest recvMsg = none) : ChildMove cfg s .go { s with pc := .faulted }
  | calls (o : TuxOutcome) (req : Request) (t : TuxRun) (hpc : s.pc = .calling req)
      (hcall : commTuxTpcall req.tranCode.bytes req.requestData.bytes (Buf.zeroed maxbufLen)
        cfg.tuxEnvstr.bytes o = some t) :
      ChildMove cfg s (.tux o) { s with pc := .called req t }
  | callFaults (o : TuxOutcome) (req : Request) (hpc : s.pc = .calling req)
      (hcall : commTuxTpcall req.tranCode.bytes req.requestData.bytes (Buf.zeroed maxbufLen)
        cfg.tuxEnvstr.bytes o = none) :
      ChildMove cfg s (.tux o) { s with pc := .faulted }
  | formats (req : Request) (t : TuxRun) (resp : Response) (hpc : s.pc = .called req t)
      (hresp : formatResponse t.ret req.tranCode t.responseBuf = some resp) :
      ChildMove cfg s .go
        { s with pc := .sending resp (sendInit resp.sendlen), normal := some resp }
  | formatFaults (req : Request) (t : TuxRun) (hpc : s.pc = .called req t)
      (hresp : formatResponse t.ret req.tranCode t.responseBuf = none) :
      ChildMove cfg s .go { s with pc := .faulted }
  -- `send_nbytes` with the normal response
  | sends (r : SendResult) (resp : Response) (st st' : SendSt) (hpc : s.pc = .sending resp st)
      (hround : sendRound resp.sendMsg.bytes st r = .again st') :
      ChildMove cfg s (.send r)
        { s with
          pc := .sending resp st'
          wire := s.wire ++ sendBytes resp.sendMsg.bytes st r }
  | sendFails (r : SendResult) (resp : Response) (st st' : SendSt) (v : Int)
      (hpc : s.pc = .sending resp st) (hround : sendRound resp.sendMsg.bytes st r = .done st' v) :
      ChildMove cfg s (.send r) { s with pc := parseReturn resp v }
  | sendEnds (resp : Response) (st : SendSt) (hpc : s.pc = .sending resp st) (hleft : st.left = 0) :
      ChildMove cfg s .go { s with pc := parseReturn resp st.sended }
  | parseReturns (ret : Int) (hpc : s.pc = .parseReturned ret) :
      ChildMove cfg s .go { s with pc := .mainReturned (if ret ≠ eOk then eFail else eOk) }
  -- `send_nbytes` with the timeout response
  | formatsTimeout (resp : Response) (hpc : s.pc = .jumped) (hresp : formatTimeout = some resp) :
      ChildMove cfg s .go { s with pc := .sendingTimeout resp (sendInit resp.sendlen) }
  | formatTimeoutFaults (hpc : s.pc = .jumped) (hresp : formatTimeout = none) :
      ChildMove cfg s .go { s with pc := .faulted }
  | sendsTimeout (r : SendResult) (resp : Response) (st st' : SendSt)
      (hpc : s.pc = .sendingTimeout resp st)
      (hround : sendRound resp.sendMsg.bytes st r = .again st') :
      ChildMove cfg s (.send r)
        { s with
          pc := .sendingTimeout resp st'
          wire := s.wire ++ sendBytes resp.sendMsg.bytes st r }
  | timeoutFails (r : SendResult) (resp : Response) (st st' : SendSt) (v : Int)
      (hpc : s.pc = .sendingTimeout resp st)
      (hround : sendRound resp.sendMsg.bytes st r = .done st' v) :
      ChildMove cfg s (.send r) { s with pc := .mainReturned eFail }
  | timeoutEnds (resp : Response) (st : SendSt) (hpc : s.pc = .sendingTimeout resp st)
      (hleft : st.left = 0) : ChildMove cfg s .go { s with pc := .mainReturned eFail }
  -- `fork_proc`
  | closes (ret : Int) (hpc : s.pc = .mainReturned ret) : ChildMove cfg s .go { s with pc := .closed }
  | exits (hpc : s.pc = .closed) : ChildMove cfg s .go { s with pc := .exited }
  -- `func_timeout_handler`
  | jumps (harmed : s.armed = true) (hmain : s.pc.inMain = true) :
      ChildMove cfg s .sigalrm { s with pc := .jumped, armed := false }
  | strays (harmed : s.armed = true) (hmain : s.pc.inMain = false) :
      ChildMove cfg s .sigalrm { s with pc := .wild, armed := false }

section Move

variable {cfg : CommSvrSocket} {s s' : Child} {a : ChildAct}

theorem move_of_recv {r : ReadRound} (h : childStep cfg s (.recv r) = some s') :
    ChildMove cfg s (.recv r) s' := by
  simp only [childStep] at h
  split at h
  case h_1 rBufLen st hpc =>
    split at h
    case isTrue hleft =>
      split at h
      case h_1 st' hround =>
        cases h
        exact .recvAgain r rBufLen st st' hpc hleft (Or.inl hround)
      case h_2 st' hround =>
        cases h
        exact .recvAgain r rBufLen st st' hpc hleft (Or.inr hround)
      case h_3 st' v hround =>
        cases h
        exact .recvReturns r rBufLen st st' v hpc hleft hround
      case h_4 st' hround =>
        cases h
        exact .recvFaults r rBufLen st st' hpc hleft hround
    case isFalse => cases h
  case h_2 => cases h

/-- One round of `send_nbytes`, for any way to go on. -/
theorem sendStep_rounds {resp : Response} {st : SendSt} {r : SendResult} {again : SendSt → Pc}
    {done : Int → Pc} (h : sendStep s resp st r again done = some s') :
    (∃ st', sendRound resp.sendMsg.bytes st r = .again st' ∧
      s' = { s with pc := again st', wire := s.wire ++ sendBytes resp.sendMsg.bytes st r }) ∨
    ∃ st' v, sendRound resp.sendMsg.bytes st r = .done st' v ∧ s' = { s with pc := done v } := by
  unfold sendStep at h
  split at h
  · split at h
    case h_1 st' hround => exact Or.inl ⟨st', hround, (Option.some.inj h).symm⟩
    case h_2 st' v hround => exact Or.inr ⟨st', v, hround, (Option.some.inj h).symm⟩
    case h_3 => cases h
  · cases h

theorem sendDone_spec {st : SendSt} {done : Int → Pc} (h : sendDone s st done = some s') :
    st.left = 0 ∧ s' = { s with pc := done st.sended } := by
  unfold sendDone at h
  split at h
  · cases h
  case isFalse hleft => exact ⟨Nat.eq_zero_of_not_pos hleft, (Option.some.inj h).symm⟩

theorem move_of_send {r : SendResult} (h : childStep cfg s (.send r) = some s') :
    ChildMove cfg s (.send r) s' := by
  simp only [childStep] at h
  split at h
  case h_1 resp st hpc =>
    rcases sendStep_rounds h with ⟨st', hround, rfl⟩ | ⟨st', v, hround, rfl⟩
    · exact .sends r resp st st' hpc hround
    · exact .sendFails r resp st st' v hpc hround
  case h_2 resp st hpc =>
    rcases sendStep_rounds h with ⟨st', hround, rfl⟩ | ⟨st', v, hround, rfl⟩
    · exact .sendsTimeout r resp st st' hpc hround
    · exact .timeoutFails r resp st st' v hpc hround
  case h_3 => cases h

theorem move_of_go (h : childStep cfg s .go = some s') : ChildMove cfg s .go s' := by
  simp only [childStep] at h
  split at h
  case h_1 hpc =>
    cases h
    exact .setAlarm hpc
  case h_2 rBufLen st hpc =>
    split at h
    · cases h
    case isFalse hleft =>
      cases h
      exact .recvFull rBufLen st hpc (Nat.eq_zero_of_not_pos hleft)
  case h_3 recvMsg hpc =>
    split at h
    case h_1 hreq =>
      cases h
      exact .parseFaults recvMsg hpc hreq
    case h_2 req hreq =>
      cases h
      exact .parses recvMsg req hpc hreq
  case h_4 req t hpc =>
    split at h
    case h_1 hresp =>
      cases h
      exact .formatFaults req t hpc hresp
    case h_2 resp hresp =>
      cases h
      exact .formats req t resp hpc hresp
  case h_5 resp st hpc =>
    rcases sendDone_spec h with ⟨hleft, rfl⟩
    exact .sendEnds resp st hpc hleft
  case h_6 ret hpc =>
    cases h
    exact .parseReturns ret hpc
  case h_7 hpc =>
    split at h
    case h_1 hresp =>
      cases h
      exact .formatTimeoutFaults hpc hresp
    case h_2 resp hresp =>
      cases h
      exact .formatsTimeout resp hpc hresp
  case h_8 resp st hpc =>
    rcases sendDone_spec h with ⟨hleft, rfl⟩
    exact .timeoutEnds resp st hpc hleft
  case h_9 ret hpc =>
    cases h
    exact .closes ret hpc
  case h_10 hpc =>
    cases h
    exact .exits hpc
  case h_11 => cases h

theorem move_of_childStep (h : childStep cfg s a = some s') : ChildMove cfg s a s' := by
  cases a with
  | go => exact move_of_go h
  | recv r => exact move_of_recv h
  | send r => exact move_of_send h
  | localPort ok =>
      simp only [childStep] at h
      split at h
      case h_1 hpc =>
        cases h
        cases ok with
        | true => exact .portFound hpc
        | false => exact .portMissing hpc
      case h_2 => cases h
  | enter errno rcvbuf stream =>
      simp only [childStep] at h
      split at h
      case h_1 hpc =>
        cases h
        exact .enter errno rcvbuf stream hpc
      case h_2 => cases h
  | tux o =>
      simp only [childStep] at h
      split at h
      case h_1 req hpc =>
        split at h
        case h_1 hcall =>
          cases h
          exact .callFaults o req hpc hcall
        case h_2 t hcall =>
          cases h
          exact .calls o req t hpc hcall
      case h_2 => cases h
  | sigalrm =>
      simp only [childStep] at h
      split at h
      case isTrue hguard =>
        cases h
        have harmed : s.armed = true := (Bool.and_eq_true_iff.1 hguard).1
        by_cases hmain : s.pc.inMain = true
        · rw [if_pos hmain]
          exact .jumps harmed hmain
        · rw [if_neg hmain]
          exact .strays harmed (by simpa using hmain)
      case isFalse => cases h

end Move

end CommServer
