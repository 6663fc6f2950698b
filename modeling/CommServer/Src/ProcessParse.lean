import CommServer.LibSrc.Base
import CommServer.LibSrc.Socket
import CommServer.Src.CommFunc

/-!
# ProcessParse — `process_parse` of `src/comm_server.c`

One exchange of a connection child, cut where the source cuts it: receive, take the fields out of
the message, call Tuxedo, format the answer, send it.  `ParseRun` keeps what each part produced, so
that a run can stop in any of them: waiting for the peer, or at an access outside an object.
-/

namespace CommServer

open CLib

/-- What `process_parse` hands to `comm_tux_tpcall`. -/
structure Request where
  tranCode : Buf 64
  requestData : Buf maxbufLen
  deriving DecidableEq, Repr

/-- `p_str = get_str(recv_msg, &count, "$")`, then `strncpy` into a zeroed array of `k` bytes and a
terminator in its last byte. -/
def takeField (k : Nat) (recvMsg : List Byte) (count : Int) : Option (Buf k) := do
  let p ← getStr recvMsg count dlmtDollar
  let b ← strncpy (Buf.zeroed k) p.cells.bytes (k - 1)
  b.put (k - 1) 0

/-- From `recv_msg` to the arguments of `comm_tux_tpcall`. -/
def parseRequest (recvMsg : Buf maxbufLen) : Option Request := do
  -- The message is logged with its length.
  let _ ← strlen recvMsg.bytes
  let tranCode ← takeField 64 recvMsg.bytes 2
  let requestData ← takeField maxbufLen recvMsg.bytes 3
  -- The trims come after the cut to 63 bytes.
  let tranCode ← bclLtrim tranCode
  let tranCode ← bclRtrim tranCode
  return { tranCode := tranCode, requestData := requestData }

structure Response where
  respCode : Buf 16
  sendMsg : Buf maxbufLen
  sendlen : Nat
  deriving DecidableEq, Repr

/-- `strncpy(resp_code, code, sizeof(resp_code) - 1)` into the zeroed array, and its terminator. -/
def storeRespCode (code : List Byte) : Option (Buf 16) := do
  let respCode ← strncpy (Buf.zeroed 16) (code ++ [0]) (16 - 1)
  respCode.put (16 - 1) 0

/-- The response code for a return value of `comm_tux_tpcall`. -/
def respCodeOf (ret : Int) : List Byte :=
  if ret ≠ eOk then respcodeTuxedoErr else respcodeOk

/-- `"%s$%s$%s"`. -/
def responseText (respCode tranCode responseData : List Byte) : List Byte :=
  respCode ++ dollar :: (tranCode ++ dollar :: responseData)

/-- From the return value of `comm_tux_tpcall` to `send_msg` and `sendlen`. -/
def formatResponse (ret : Int) (tranCode : Buf 64) (responseData : Buf maxbufLen) :
    Option Response := do
  -- The response data is logged with its length.
  let _ ← strlen responseData.bytes
  let respCode ← storeRespCode (respCodeOf ret)
  let sendMsg := snprintf (Buf.zeroed maxbufLen)
    (responseText respCode.str tranCode.str responseData.str)
  let sendlen ← strlen sendMsg.bytes
  return { respCode := respCode, sendMsg := sendMsg, sendlen := sendlen }

/-- A run of `process_parse`, as far as it came. -/
structure ParseRun where
  /-- The arguments of `comm_tux_tpcall`, once it is called. -/
  request : Option Request
  tux : Option TuxRun
  response : Option Response
  /-- The bytes accepted by `send`. -/
  sent : List Byte
  ret : Option Int

namespace ParseRun

/-- Nothing has happened yet. -/
def idle : ParseRun :=
  { request := none
    tux := none
    response := none
    sent := []
    ret := none }

end ParseRun

/-- `send_nbytes(conn, send_msg, sendlen)` and the return. -/
def sendResponse (run : ParseRun) (resp : Response) (tx : List SendResult) : ParseRun :=
  let out := sendNbytes resp.sendMsg.bytes resp.sendlen tx
  { run with
    response := some resp
    sent := out.1.wire
    ret := out.2.map fun ret : Int => if ret ≠ resp.sendlen then eFail else eOk }

/-- From `recv_msg` to the end: take the fields, call Tuxedo, format, send.  Both generations of
`process_parse` go this way, with their own `parse` and `format`. -/
def exchange (parse : Buf maxbufLen → Option Request)
    (format : Int → Buf 64 → Buf maxbufLen → Option Response) (cfg : CommSvrSocket)
    (recvMsg : Buf maxbufLen) (o : TuxOutcome) (tx : List SendResult) : ParseRun :=
  match parse recvMsg with
  | none => ParseRun.idle
  | some req =>
      let run := { ParseRun.idle with request := some req }
      match commTuxTpcall req.tranCode.bytes req.requestData.bytes (Buf.zeroed maxbufLen)
          cfg.tuxEnvstr.bytes o with
      -- The copy of the reply leaves `response_data`: `comm_tux_tpcall` does not return.
      | none => run
      | some t =>
          let run := { run with tux := some t }
          match format t.ret req.tranCode t.responseBuf with
          | none => run
          | some resp => sendResponse run resp tx

/-- `process_parse` after `recv_nbytes` has returned with `recv_msg`. -/
def parseReceived : CommSvrSocket → Buf maxbufLen → TuxOutcome → List SendResult → ParseRun :=
  exchange parseRequest formatResponse

/-- The reception of `process_parse`: `recv_nbytes` into the zeroed `recv_msg`. -/
def receive (cfg : CommSvrSocket) (rx : Reception) : RecvSt maxbufLen × Option RecvEnd :=
  recvNbytes (Buf.zeroed maxbufLen) maxbufLen (cfg.waterTimeout.tdiv 10) rx

/-- `process_parse(conn)`.  The return value of `recv_nbytes` is dropped. -/
def processParse (cfg : CommSvrSocket) (rx : Reception) (o : TuxOutcome) (tx : List SendResult) :
    ParseRun :=
  let rcv := receive cfg rx
  match rcv.2 with
  | some (.ret _) => parseReceived cfg rcv.1.buf o tx
  | _ => ParseRun.idle

end CommServer
