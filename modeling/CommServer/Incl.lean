import CommServer.CLib.Strings

/-!
# Incl — constants and structures of `incl/`

The macros of `wrapunix.h` and the configuration record of `comm_func.h`.

The data model is LP64 with glibc, here and in all that follows: an `int` has 32 bits, and `long`,
`size_t`, `ssize_t` and pointers have 64.  So `strtol` saturates at 64 bits before `atoi` drops the
upper half, `recvlen` of `comm_tux_tpcall` is an `Int64`, and an `int` that goes to a `size_t` without
a prototype in scope has zeros above it.
-/

namespace CommServer

open CLib

/-! ## `wrapunix.h` -/

def eOk : Int := 0
def eFail : Int := -1

/-- `"0"`, communication succeeded. -/
def respcodeOk : List Byte := [0x30]

/-- `"1"`, timeout. -/
def respcodeTimeout : List Byte := [0x31]

/-- `"2"`, Tuxedo error. -/
def respcodeTuxedoErr : List Byte := [0x32]

abbrev pkgheadLength : Nat := 8
abbrev maxbufLen : Nat := 10240
abbrev maxLineLegth : Nat := 4096
abbrev defaultbuflen : Int := 65535
abbrev minsockbuflen : Int := 255

/-- The three answers of `bcl_sockisreadable`. -/
inductive SockStatus
  | broken
  | timedout
  | readable
  deriving DecidableEq, Repr

/-- The values of `errno` that the code tells apart. -/
inductive Errno
  | clear
  | eintr
  | enotsock
  | other (code : Nat)
  deriving DecidableEq, Repr

/-- The separator `'$'` of the request and response messages. -/
abbrev dollar : Byte := 0x24

/-- The string literal `"$"`, with its terminator. -/
def dlmtDollar : List Byte := [dollar, 0]

/-! ## `comm_func.h` -/

/-- `struct comm_svr_socket`, the configuration of the forwarder. -/
structure CommSvrSocket where
  commSvrPort : UInt16
  waterIp : Buf 64
  waterPort : Buf 8
  waterTimeout : Int
  tuxEnvstr : Buf 64
  deriving DecidableEq, Repr

namespace CommSvrSocket

/-- `s_comm_svr_socket` before anything is read into it. -/
def zeroed : CommSvrSocket :=
  { commSvrPort := 0
    waterIp := Buf.zeroed 64
    waterPort := Buf.zeroed 8
    waterTimeout := 0
    tuxEnvstr := Buf.zeroed 64 }

/-- The configuration that `do_process` makes of `etc/comm_server.cfg`. -/
def shipped : CommSvrSocket :=
  { commSvrPort := 9999
    -- "192.168.1.166"
    waterIp := snprintf (Buf.zeroed 64)
      [0x31, 0x39, 0x32, 0x2e, 0x31, 0x36, 0x38, 0x2e, 0x31, 0x2e, 0x31, 0x36, 0x36]
    -- "15001"
    waterPort := snprintf (Buf.zeroed 8) [0x31, 0x35, 0x30, 0x30, 0x31]
    waterTimeout := 60
    -- "WSNADDR=//192.168.1.166:15001"
    tuxEnvstr := snprintf (Buf.zeroed 64)
      [0x57, 0x53, 0x4e, 0x41, 0x44, 0x44, 0x52, 0x3d, 0x2f, 0x2f, 0x31, 0x39, 0x32, 0x2e, 0x31,
       0x36, 0x38, 0x2e, 0x31, 0x2e, 0x31, 0x36, 0x36, 0x3a, 0x31, 0x35, 0x30, 0x30, 0x31] }

end CommSvrSocket

end CommServer
