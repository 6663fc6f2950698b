import CommServer.Incl
import CommServer.Transition.Loop
import Mathlib.Algebra.Group.Int.Defs
import Mathlib.Algebra.Group.Nat.Defs

/-!
# Socket — `libsrc/socket.c`

The three loops that move bytes over a connection, each a scripted loop over the answers of the
system calls it makes:

* `sendNbytes` : `send_nbytes`, one `send` a round;
* `recvNbytes` : `recv_nbytes`, one `bcl_sockisreadable` and one `recv` a round;
* `recvn`      : `recvn`, one `recv` a round.

A script is what the kernel and the peer decide; time passes only in these answers.  The bytes that
`recv` returns are always the next ones of the peer's stream, as many as the script grants within the
size asked for.  `CommLog` is taken to leave `errno` alone.
-/

namespace CommServer

open CLib Transition

/-! ## `send_nbytes` -/

/-- The answer of one `send`. -/
inductive SendResult
  | accepted (n : Nat)
  | failed (e : Errno)
  deriving DecidableEq, Repr

structure SendSt where
  left : Nat
  sended : Nat
  /-- The bytes the kernel has accepted, in order. -/
  wire : List Byte
  deriving DecidableEq, Repr

/-- The bytes one `send(sock, buf + sended, left, 0)` puts on the wire: never more than asked. -/
def sendChunk (buf : List Byte) (s : SendSt) (n : Nat) : List Byte :=
  (buf.drop s.sended).take (min n s.left)

/-- The bytes one answer of `send` puts on the wire. -/
def sendBytes (buf : List Byte) (s : SendSt) : SendResult → List Byte
  | .failed _ => []
  | .accepted n => sendChunk buf s n

/-- The body of the loop of `send_nbytes`. -/
def sendRound (buf : List Byte) (s : SendSt) : SendResult → Round SendSt Int
  | .failed e => if e = .eintr then .again s else .done s (-1)
  | .accepted n =>
      -- A `send` of nothing is no failure: the round is repeated.
      let chunk := sendChunk buf s n
      .again
        { left := s.left - chunk.length
          sended := s.sended + chunk.length
          wire := s.wire ++ chunk }

def sendLoop (buf : List Byte) : EventLoop SendSt SendResult Int where
  exit s := if s.left > 0 then none else some s.sended
  round := sendRound buf

def sendInit (len : Nat) : SendSt :=
  { left := len
    sended := 0
    wire := [] }

/-- `send_nbytes(sock, buf, len)`. -/
def sendNbytes (buf : List Byte) (len : Nat) (script : List SendResult) : SendSt × Option Int :=
  (sendLoop buf).run (sendInit len) script

/-! ## Waiting for input -/

/-- `ioctl(sock, FIONREAD, &value)`. -/
inductive IoctlResult
  | value (v : Int)
  | failed (e : Errno)
  deriving DecidableEq, Repr

/-- `errno` after the call, when it was `e` before. -/
def IoctlResult.errno (e : Errno) : IoctlResult → Errno
  | .value _ => e
  | .failed e' => e'

/-- `bcl_bytesreadable`. -/
def bclBytesreadable : IoctlResult → Int
  | .value v => v
  | .failed _ => eFail

/-- One `select` on the socket: expired, failed, or an event, with `FD_ISSET` and the `FIONREAD`
that follows it. -/
inductive SelectResult
  | expired
  | failed (e : Errno)
  | event (isset : Bool) (fionread : IoctlResult)
  deriving DecidableEq, Repr

/-- `bcl_sockisreadable(sock, tmval)`, with the `errno` it starts from and leaves.  It is still
waiting when the script ends. -/
def bclSockisreadable (tmval : Int) : Errno → List SelectResult → Option (SockStatus × Errno)
  | _, [] => none
  | e, .expired :: polls =>
      -- Below zero the timeout pointer is null, and such a `select` never expires.
      if tmval ≥ 0 then some (.timedout, e) else bclSockisreadable tmval e polls
  | _, .failed e' :: polls =>
      if e' = .eintr then bclSockisreadable tmval e' polls else some (.broken, e')
  | e, .event isset fionread :: polls =>
      -- An event on another descriptor goes back to `select`.
      if isset then
        if bclBytesreadable fionread ≤ 0 then some (.broken, fionread.errno e)
        else some (.readable, e)
      else bclSockisreadable tmval e polls

/-- `getsockopt(sock, SOL_SOCKET, SO_RCVBUF, ...)`. -/
inductive SockoptResult
  | value (v : Int)
  | failed (e : Errno)
  deriving DecidableEq, Repr

/-- `bcl_getrcvbuflen`. -/
def bclGetrcvbuflen (r : SockoptResult) : Int :=
  let val :=
    match r with
    | .value v => v
    | .failed e => if e = .enotsock then defaultbuflen else minsockbuflen
  if val ≤ 0 then minsockbuflen else val

/-! ## `recv_nbytes` -/

/-- The answer of one `recv`: at most `n` of the bytes that are there, none when there are none. -/
inductive RecvResult
  | data (n : Nat)
  | failed (e : Errno)
  deriving DecidableEq, Repr

/-- The answers to one round of `recv_nbytes`. -/
structure ReadRound where
  polls : List SelectResult
  recv : RecvResult
  deriving DecidableEq, Repr

/-- How a receive loop ends: with its return value, or by storing outside the buffer. -/
inductive RecvEnd
  | ret (v : Int)
  | fault
  deriving DecidableEq, Repr

structure RecvSt (k : Nat) where
  buf : Buf k
  left : Nat
  readed : Nat
  errno : Errno
  /-- What the peer has sent and the code has not read. -/
  inbox : List Byte
  deriving DecidableEq, Repr

/-- The bytes one `recv(sock, buf + readed, min(left, r_buf_len), 0)` returns. -/
def RecvSt.chunk {k : Nat} (s : RecvSt k) (rBufLen : Int) (n : Nat) : List Byte :=
  s.inbox.take (min n (min (s.left : Int) rBufLen).toNat)

/-- What `recv_nbytes` returns when the input ends. -/
def RecvSt.atEnd {k : Nat} (s : RecvSt k) : Int :=
  if s.readed > 0 then s.readed else eFail

/-- The case `SS_READABLE`: one `recv`, with the `errno` that stands before it. -/
def recvReadable {k : Nat} (rBufLen : Int) (s : RecvSt k) (e : Errno) :
    RecvResult → Round (RecvSt k) RecvEnd
  | .failed e' =>
      if e' = .eintr then .again { s with errno := e' }
      else .done { s with errno := e' } (.ret eFail)
  | .data n =>
      let chunk := s.chunk rBufLen n
      if chunk.length = 0 then
        -- `cnt <= 0` holds for an end of stream too, and `errno` is then an old one; the branch
        -- `cnt == 0` behind it is never taken.
        if e = .eintr then .again { s with errno := e }
        else .done { s with errno := e } (.ret eFail)
      else
        -- `recv` writes behind what was read before.
        match s.buf.blit s.readed chunk with
        | none => .done { s with errno := e } .fault
        | some buf =>
            .again
              { buf := buf
                left := s.left - chunk.length
                readed := s.readed + chunk.length
                errno := e
                inbox := s.inbox.drop chunk.length }

/-- The body of the loop of `recv_nbytes`. -/
def recvRound {k : Nat} (tmot rBufLen : Int) (s : RecvSt k) (r : ReadRound) :
    Round (RecvSt k) RecvEnd :=
  match bclSockisreadable tmot s.errno r.polls with
  | none => .waiting s
  | some (.readable, e) => recvReadable rBufLen s e r.recv
  | some (.timedout, e) => .done { s with errno := e } (.ret s.atEnd)
  | some (.broken, e) => .done { s with errno := e } (.ret s.atEnd)

def recvLoop {k : Nat} (tmot rBufLen : Int) : EventLoop (RecvSt k) ReadRound RecvEnd where
  exit s := if s.left > 0 then none else some (.ret s.readed)
  round := recvRound tmot rBufLen

/-- Everything the environment decides during one reception. -/
structure Reception where
  /-- `errno` when the loop is entered, behind `bcl_getrcvbuflen`; a `getsockopt` that fails sets
  it too. -/
  errno : Errno
  rcvbuf : SockoptResult
  /-- What the peer sends. -/
  stream : List Byte
  rounds : List ReadRound
  deriving DecidableEq, Repr

def recvInit {k : Nat} (buf : Buf k) (len : Nat) (rx : Reception) : RecvSt k :=
  { buf := buf
    left := len
    readed := 0
    errno := rx.errno
    inbox := rx.stream }

/-- `recv_nbytes(sock, buf, len, tmot)`. -/
def recvNbytes {k : Nat} (buf : Buf k) (len : Nat) (tmot : Int) (rx : Reception) :
    RecvSt k × Option RecvEnd :=
  (recvLoop tmot (bclGetrcvbuflen rx.rcvbuf)).run (recvInit buf len rx) rx.rounds

/-! ## `recvn` -/

structure RecvnSt (k : Nat) where
  buf : Buf k
  /-- `ssize_t nleft`. -/
  nleft : Int
  /-- `ptr`, as an offset into the array. -/
  ptr : Nat
  inbox : List Byte
  deriving DecidableEq, Repr

/-- `return(n - nleft)`: computed in `size_t`, returned as an `int`. -/
def recvnRet (n : UInt64) (nleft : Int) : Int :=
  ((n.toNat : Int) - nleft).bmod (2 ^ 32)

/-- The body of the loop of `recvn`. -/
def recvnRound {k : Nat} (n : UInt64) (s : RecvnSt k) : RecvResult → Round (RecvnSt k) RecvEnd
  | .failed e => if e = .eintr then .again s else .done s (.ret (-1))
  | .data m =>
      let chunk := s.inbox.take (min m s.nleft.toNat)
      -- End of stream: `break`, and what has come is counted.
      if chunk.length = 0 then .done s (.ret (recvnRet n s.nleft))
      else
        match s.buf.blit s.ptr chunk with
        | none => .done s .fault
        | some buf =>
            .again
              { buf := buf
                nleft := s.nleft - chunk.length
                ptr := s.ptr + chunk.length
                inbox := s.inbox.drop chunk.length }

def recvnLoop {k : Nat} (n : UInt64) : EventLoop (RecvnSt k) RecvResult RecvEnd where
  exit s := if s.nleft > 0 then none else some (.ret (recvnRet n s.nleft))
  round := recvnRound n

/-- `recvn(fd, buf + off, n)`, reading from the peer's `inbox`. -/
def recvn {k : Nat} (buf : Buf k) (off : Nat) (n : UInt64) (inbox : List Byte)
    (script : List RecvResult) : RecvnSt k × Option RecvEnd :=
  (recvnLoop n).run
    { buf := buf
      nleft := n.toInt64.toInt
      ptr := off
      inbox := inbox } script

end CommServer
