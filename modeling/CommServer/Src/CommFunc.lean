import CommServer.Incl

/-!
# CommFunc — `comm_tux_tpcall` of `src/comm_func.c`

Tuxedo itself is the environment: `TuxOutcome` is what its calls answer during one run of
`comm_tux_tpcall`.  `recvlen` is the value the local variable holds after `tpcall`, whether the call
has written it or not.
-/

namespace CommServer

open CLib

/-- The `STRING` buffer that `tpalloc` returned with `MAXBUF_LEN` bytes and `tpcall` may have
replaced by a larger one. -/
structure ReplyBuf where
  bytes : List Byte
  size : maxbufLen ≤ bytes.length

namespace ReplyBuf

/-- The string the service replied. -/
def str (b : ReplyBuf) : List Byte :=
  cstr b.bytes

end ReplyBuf

/-- The answers of the Tuxedo calls. -/
structure TuxOutcome where
  tpinit : Int
  /-- The first `tpalloc` succeeds. -/
  sendbuf : Bool
  /-- The second `tpalloc` succeeds. -/
  recvbuf : Bool
  tpcall : Int
  recvlen : Int64
  reply : ReplyBuf

namespace TuxOutcome

/-- `tpinit` and both `tpalloc` succeed; `tpcall` returns `ret`, leaving `recvlen` and a reply. -/
def returning (ret : Int) (recvlen : Int64) (reply : List Byte) : TuxOutcome :=
  { tpinit := 0
    sendbuf := true
    recvbuf := true
    tpcall := ret
    recvlen := recvlen
    reply := ⟨reply ++ List.replicate maxbufLen 0, by simp⟩ }

end TuxOutcome

/-- The Tuxedo calls made, in order. -/
inductive TpEvent
  | tuxputenv (envstr : List Byte)
  | tpinit
  | tpallocSend (size : Nat)
  | tpallocRecv (size : Nat)
  | tpcall (servicename data : List Byte)
  | tpfreeRecv
  | tpfreeSend
  | tpterm
  deriving DecidableEq, Repr

structure TuxRun where
  ret : Int
  responseBuf : Buf maxbufLen
  calls : List TpEvent

/-- `comm_tux_tpcall(servicename, request_buf, response_buf, envstr)`. -/
def commTuxTpcall (servicename requestBuf : List Byte) (responseBuf : Buf maxbufLen)
    (envstr : List Byte) (o : TuxOutcome) : Option TuxRun := do
  let opened := [.tuxputenv envstr, .tpinit]
  if o.tpinit = eFail then
    return { ret := eFail, responseBuf := responseBuf, calls := opened }
  let len ← strlen requestBuf
  let opened := opened ++ [.tpallocSend (len + 1)]
  if !o.sendbuf then
    return { ret := eFail, responseBuf := responseBuf, calls := opened ++ [.tpterm] }
  let opened := opened ++ [.tpallocRecv maxbufLen]
  if !o.recvbuf then
    return { ret := eFail, responseBuf := responseBuf, calls := opened ++ [.tpfreeSend, .tpterm] }
  let calls := opened ++
    [.tpcall (cstr servicename) (cstr requestBuf), .tpfreeRecv, .tpfreeSend, .tpterm]
  -- Whether `tpcall` failed is only written to the log.
  if o.recvlen.toInt > (maxbufLen : Int) - 100 then
    return { ret := eFail, responseBuf := responseBuf, calls := calls }
  -- A negative length passes the check, and is a huge `size_t` here.
  let responseBuf ← strncpy responseBuf o.reply.bytes o.recvlen.toUInt64.toNat
  return { ret := eOk, responseBuf := responseBuf, calls := calls }

end CommServer
