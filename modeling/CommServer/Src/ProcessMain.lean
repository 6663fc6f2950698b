import CommServer.Src.ProcessParse

/-!
# ProcessMain — the life of a connection child

`fork_proc` calls `process_main` in the child, closes the connection and exits.  The alarm that
`process_main` sets can interrupt it anywhere, so the child is a step machine: `Pc` is where it is,
with the local state of the loop it is in, and `childStep` is one step, decided by the environment's
answer or by nothing (`go`).  The loops of `recv_nbytes` and `send_nbytes` go round by round, with the
bodies of `Socket`.

`sigalrm` is the delivery of the alarm: the handler jumps to the second return of `setjmp`.  A jump
before `setjmp` was called or after `process_main` has returned has no target, and ends in `wild`.
-/

namespace CommServer

open CLib Transition

/-! ## The timeout response -/

/-- `"%s$$"` with the code of a timeout, as `process_main` formats it. -/
def formatTimeout : Option Response := do
  let respCode ← storeRespCode respcodeTimeout
  let sendMsg := snprintf (Buf.zeroed maxbufLen) (respCode.str ++ [dollar, dollar])
  let sendlen ← strlen sendMsg.bytes
  return { respCode := respCode, sendMsg := sendMsg, sendlen := sendlen }

/-! ## States -/

/-- Where a connection child is. -/
inductive Pc
  /-- `process_main` is entered. -/
  | start
  /-- `get_local_port` has succeeded; the handler and the alarm are set next. -/
  | portKnown
  /-- The alarm is set; `setjmp` and `process_parse` are called next. -/
  | alarmSet
  | receiving (rBufLen : Int) (s : RecvSt maxbufLen)
  /-- `recv_nbytes` has returned. -/
  | received (recvMsg : Buf maxbufLen)
  /-- In `comm_tux_tpcall`. -/
  | calling (req : Request)
  | called (req : Request) (t : TuxRun)
  | sending (resp : Response) (s : SendSt)
  | parseReturned (ret : Int)
  /-- `setjmp` has returned a second time. -/
  | jumped
  | sendingTimeout (resp : Response) (s : SendSt)
  | mainReturned (ret : Int)
  /-- The connection is closed. -/
  | closed
  | exited
  /-- An access outside an object. -/
  | faulted
  /-- A jump without a target. -/
  | wild

namespace Pc

/-- Between the first return of `setjmp` and the return of `process_main`. -/
def inMain : Pc → Bool
  | .receiving _ _ | .received _ | .calling _ | .called _ _ | .sending _ _ | .parseReturned _
  | .jumped | .sendingTimeout _ _ => true
  | _ => false

/-- The process still executes the program. -/
def running : Pc → Bool
  | .exited | .faulted | .wild => false
  | _ => true

end Pc

structure Child where
  pc : Pc
  /-- An alarm is pending. -/
  armed : Bool
  /-- Everything the connection has accepted. -/
  wire : List Byte
  /-- The normal response, once it is formed. -/
  normal : Option Response

namespace Child

def init : Child :=
  { pc := .start
    armed := false
    wire := []
    normal := none }

end Child

/-! ## Steps -/

/-- What decides a step: nothing, an answer of the environment, or the alarm. -/
inductive ChildAct
  | go
  | localPort (ok : Bool)
  /-- What `process_parse` finds: the receive buffer, `errno` behind the look at it, and what the peer
  sends. -/
  | enter (errno : Errno) (rcvbuf : SockoptResult) (stream : List Byte)
  | recv (r : ReadRound)
  | tux (o : TuxOutcome)
  | send (r : SendResult)
  | sigalrm

/-- One round of `send_nbytes`, going on at `again` or returning to `done`. -/
def sendStep (s : Child) (resp : Response) (st : SendSt) (r : SendResult) (again : SendSt → Pc)
    (done : Int → Pc) : Option Child :=
  if st.left > 0 then
    match sendRound resp.sendMsg.bytes st r with
    | .again st' =>
        some { s with pc := again st', wire := s.wire ++ sendBytes resp.sendMsg.bytes st r }
    | .done _ v => some { s with pc := done v }
    | .waiting _ => none
  else none

/-- The end of `send_nbytes`. -/
def sendDone (s : Child) (st : SendSt) (done : Int → Pc) : Option Child :=
  if st.left > 0 then none else some { s with pc := done st.sended }

/-- What `process_parse` returns after `send_nbytes`. -/
def parseReturn (resp : Response) (ret : Int) : Pc :=
  .parseReturned (if ret ≠ resp.sendlen then eFail else eOk)

/-- One step of a connection child. -/
def childStep (cfg : CommSvrSocket) (s : Child) : ChildAct → Option Child
  | .sigalrm =>
      -- The alarm is used up, whether the jump has a target or not.
      if s.armed && s.pc.running then
        some { s with pc := if s.pc.inMain then .jumped else .wild, armed := false }
      else none
  | .localPort ok =>
      match s.pc with
      | .start => some { s with pc := if ok then .portKnown else .mainReturned (-1) }
      | _ => none
  | .enter errno rcvbuf stream =>
      match s.pc with
      | .alarmSet =>
          some
            { s with
              pc := .receiving (bclGetrcvbuflen rcvbuf)
                (recvInit (Buf.zeroed maxbufLen) maxbufLen
                  { errno := errno, rcvbuf := rcvbuf, stream := stream, rounds := [] }) }
      | _ => none
  | .recv r =>
      match s.pc with
      | .receiving rBufLen st =>
          if st.left > 0 then
            match recvRound (cfg.waterTimeout.tdiv 10) rBufLen st r with
            | .again st' => some { s with pc := .receiving rBufLen st' }
            | .waiting st' => some { s with pc := .receiving rBufLen st' }
            -- What `recv_nbytes` returns is dropped.
            | .done st' (.ret _) => some { s with pc := .received st'.buf }
            | .done _ .fault => some { s with pc := .faulted }
          else none
      | _ => none
  | .tux o =>
      match s.pc with
      | .calling req =>
          match commTuxTpcall req.tranCode.bytes req.requestData.bytes (Buf.zeroed maxbufLen)
              cfg.tuxEnvstr.bytes o with
          | none => some { s with pc := .faulted }
          | some t => some { s with pc := .called req t }
      | _ => none
  | .send r =>
      match s.pc with
      | .sending resp st => sendStep s resp st r (.sending resp) (parseReturn resp)
      | .sendingTimeout resp st =>
          sendStep s resp st r (.sendingTimeout resp) fun _ => .mainReturned eFail
      | _ => none
  | .go =>
      match s.pc with
      -- `alarm(0)` sets none.
      | .portKnown => some { s with pc := .alarmSet, armed := cfg.waterTimeout ≠ 0 }
      | .receiving _ st => if st.left > 0 then none else some { s with pc := .received st.buf }
      | .received recvMsg =>
          match parseRequest recvMsg with
          | none => some { s with pc := .faulted }
          | some req => some { s with pc := .calling req }
      | .called req t =>
          match formatResponse t.ret req.tranCode t.responseBuf with
          | none => some { s with pc := .faulted }
          | some resp =>
              some { s with pc := .sending resp (sendInit resp.sendlen), normal := some resp }
      | .sending resp st => sendDone s st (parseReturn resp)
      | .parseReturned ret => some { s with pc := .mainReturned (if ret ≠ eOk then eFail else eOk) }
      -- The timeout response goes out on `conn`, whatever was sent on it before.
      | .jumped =>
          match formatTimeout with
          | none => some { s with pc := .faulted }
          | some resp => some { s with pc := .sendingTimeout resp (sendInit resp.sendlen) }
      | .sendingTimeout _ st => sendDone s st fun _ => .mainReturned eFail
      | .mainReturned _ => some { s with pc := .closed }
      | .closed => some { s with pc := .exited }
      | _ => none

end CommServer
