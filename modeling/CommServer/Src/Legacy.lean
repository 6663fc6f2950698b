import CommServer.CLib.Decimal
import CommServer.Src.ProcessParse

/-!
# Legacy — `process_parse_20160927` of `src/comm_server.c`

The exchange of the length-prefixed protocol: a header of eight digits, a body
`$响应码$Tuxedo交易码$数据包$` of that length, and a response framed in the same way.  The parts that
it shares with `process_parse` are those of `ProcessParse`.  Of `process_main_20160927`, its caller,
there is the frame that answers a timeout.
-/

namespace CommServer

open CLib

/-- What the peer sends, and the answers to the `recv` calls of the two `recvn`. -/
structure FramedReception where
  stream : List Byte
  head : List RecvResult
  body : List RecvResult
  deriving DecidableEq, Repr

/-- `headlen = recvn(conn, recv_head, PKGHEAD_LENGTH)`. -/
def receiveHead (rx : FramedReception) : RecvnSt 128 × Option RecvEnd :=
  recvn (Buf.zeroed 128) 0 8 rx.stream rx.head

/-- An `int` that `recvn` takes for a `size_t`.  No prototype of `recvn` is in scope at its calls, so
the `int` is passed as it is, and the upper half of the register is zero. -/
def sizeOfInt (v : Int) : UInt64 :=
  (Int32.ofInt v).toUInt32.toUInt64

/-- `memcpy(recv_msg, recv_head, PKGHEAD_LENGTH)` into the zeroed array. -/
def startMessage (recvHead : Buf 128) : Option (Buf maxbufLen) :=
  (Buf.zeroed maxbufLen).blit 0 (recvHead.bytes.take pkgheadLength)

/-- `ret = recvn(conn, recv_msg + PKGHEAD_LENGTH, msglen)`. -/
def receiveBody (recvMsg : Buf maxbufLen) (msglen : Int) (inbox : List Byte)
    (script : List RecvResult) : RecvnSt maxbufLen × Option RecvEnd :=
  recvn recvMsg pkgheadLength (sizeOfInt msglen) inbox script

/-- How the reception of a frame ends. -/
inductive FramedEnd
  | waiting
  | fault
  /-- The header or the body is too short. -/
  | rejected
  | accepted (recvMsg : Buf maxbufLen)
  deriving DecidableEq, Repr

/-- The reception of `process_parse_20160927`. -/
def receiveFrame (rx : FramedReception) : FramedEnd :=
  match receiveHead rx with
  | (_, none) => .waiting
  | (_, some .fault) => .fault
  | (h, some (.ret headlen)) =>
      if headlen ≠ pkgheadLength then .rejected
      else
        -- A negative `msglen` is a size between 2^31 and 2^32 in `recvn`, and a failure of `recvn` is
        -- the number -1 here.
        let msglen := atoi h.buf.bytes
        match startMessage h.buf with
        | none => .fault
        | some recvMsg =>
            match receiveBody recvMsg msglen h.inbox rx.body with
            | (_, none) => .waiting
            | (_, some .fault) => .fault
            | (b, some (.ret ret)) => if ret ≠ msglen then .rejected else .accepted b.buf

/-- From `recv_msg` to the arguments of `comm_tux_tpcall`: one field further than `process_parse`,
and no trims. -/
def parseFramed (recvMsg : Buf maxbufLen) : Option Request := do
  let tranCode ← takeField 64 recvMsg.bytes 3
  let requestData ← takeField maxbufLen recvMsg.bytes 4
  return { tranCode := tranCode, requestData := requestData }

/-- `"%08d$%s$%s$%s$"`. -/
def framedText (len : Int) (respCode tranCode responseData : List Byte) : List Byte :=
  printfPadded 8 len ++ dollar :: (respCode ++ dollar :: (tranCode ++ dollar ::
    (responseData ++ [dollar])))

/-- From the return value of `comm_tux_tpcall` to `send_msg` and `sendlen`. -/
def formatFramed (ret : Int) (tranCode : Buf 64) (responseData : Buf maxbufLen) :
    Option Response := do
  -- The response data is logged with its length.
  let _ ← strlen responseData.bytes
  let respCode ← storeRespCode (respCodeOf ret)
  let codeLen ← strlen respCode.bytes
  let tranLen ← strlen tranCode.bytes
  let dataLen ← strlen responseData.bytes
  let sendlen := pkgheadLength + 4 + codeLen + tranLen + dataLen
  let sendMsg := snprintf (Buf.zeroed maxbufLen)
    (framedText ((sendlen : Int) - pkgheadLength) respCode.str tranCode.str responseData.str)
  return { respCode := respCode, sendMsg := sendMsg, sendlen := sendlen }

/-- `"%08d$%s$$$"`. -/
def framedTimeoutText (len : Int) (respCode : List Byte) : List Byte :=
  printfPadded 8 len ++ dollar :: (respCode ++ [dollar, dollar, dollar])

/-- The timeout response of `process_main_20160927`. -/
def formatTimeout20160927 : Option Response := do
  let respCode ← storeRespCode respcodeTimeout
  let codeLen ← strlen respCode.bytes
  let sendlen := pkgheadLength + 4 + codeLen
  let sendMsg := snprintf (Buf.zeroed maxbufLen)
    (framedTimeoutText ((sendlen : Int) - pkgheadLength) respCode.str)
  return { respCode := respCode, sendMsg := sendMsg, sendlen := sendlen }

/-- `process_parse_20160927` after the frame has been received. -/
def parseReceived20160927 :
    CommSvrSocket → Buf maxbufLen → TuxOutcome → List SendResult → ParseRun :=
  exchange parseFramed formatFramed

/-- `process_parse_20160927(conn)`. -/
def processParse20160927 (cfg : CommSvrSocket) (rx : FramedReception) (o : TuxOutcome)
    (tx : List SendResult) : ParseRun :=
  match receiveFrame rx with
  | .waiting => ParseRun.idle
  | .fault => ParseRun.idle
  | .rejected => { ParseRun.idle with ret := some (-1) }
  | .accepted recvMsg => parseReceived20160927 cfg recvMsg o tx

end CommServer
