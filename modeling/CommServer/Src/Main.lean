import CommServer.Src.ProcessMain
import CommServer.Unix.Processes

/-!
# Main — `main`, `do_process`, `parent_proc` and `fork_proc` of `src/comm_server.c`

The service as a system of processes: the supervisor (`main`), its server (`do_process` and
`parent_proc`) and the connection children (`fork_proc` and `process_main`).  `Loc` is where a process
is; `codeStep` is what the code does there with an answer of the environment, and `Sys.apply` what the
kernel makes of it.

The kernel refuses `bind` and `listen` on a port exactly while a live process holds a socket that
listens on it.  Port 0 is treated like any other, although `bind` then picks a free port and is never
refused.  `FD_CLOEXEC` is left out: nothing here calls `exec`.

`Sys.log` is a history that the code does not see.  Its length gives a new connection its number.
-/

namespace CommServer

open Unix

/-! ## States -/

/-- What is behind the descriptors. -/
inductive Sock
  | stream
  | bound (port : UInt16)
  | listening (port : UInt16)
  | conn (c : Nat)
  deriving DecidableEq, Repr

/-- Where a process is. -/
inductive Loc
  /-- `main`, after `run_daemon`. -/
  | started
  /-- `waitpid` is called. -/
  | polling
  /-- `waitpid` has returned a process. -/
  | reaped
  | sleeping
  /-- `do_process` is entered. -/
  | doProcess
  /-- The configuration is read; `tcp_listener` is called. -/
  | configured
  | socketMade (sockid : Fd)
  | bound (sockid : Fd)
  /-- The head of the loop of `parent_proc`. -/
  | loopHead (listenFd : Fd)
  /-- `select` has announced a connection. -/
  | selected (listenFd : Fd)
  | accepted (listenFd nConnect : Fd)
  /-- `fork_proc` has returned. -/
  | forked (listenFd nConnect : Fd)
  /-- In a child of `fork_proc`. -/
  | processMain (connect : Fd) (c : Child)

/-- The program state of a process: where it is, and the global `s_comm_svr_socket`. -/
structure Program where
  loc : Loc
  svr : CommSvrSocket

abbrev Process : Type :=
  Proc Program Sock

namespace Process

def loc (pr : Process) : Loc :=
  pr.state.loc

/-- The port that `tcp_listener` is called with. -/
def port (pr : Process) : UInt16 :=
  pr.state.svr.commSvrPort

def goto (pr : Process) (l : Loc) : Process :=
  { pr with state := { pr.state with loc := l } }

def withTable (pr : Process) (t : FdTable Sock) : Process :=
  { pr with table := t }

/-- The connection that an iteration of `parent_proc` has accepted and not closed yet. -/
def inHand (pr : Process) : Option Sock :=
  match pr.loc with
  | .accepted _ nConnect | .forked _ nConnect => pr.table.get nConnect
  | _ => none

end Process

inductive Event
  /-- `tcp_accept` in `parent_proc`. -/
  | accepted (p : Pid) (c : Nat)
  /-- A `fork` that handed on `handed`, and the child if there is one. -/
  | forked (p : Pid) (handed : Option Sock) (child : Option Pid)
  /-- `sock_close` in `parent_proc`. -/
  | closed (p : Pid) (sock : Option Sock)
  /-- `sock_close` in a child of `fork_proc`. -/
  | released (p : Pid) (sock : Option Sock)
  /-- `bind` or `listen` was refused. -/
  | refused (p : Pid) (port : UInt16)
  /-- The end of a process by a signal. -/
  | died (p : Pid) (inHand : Option Sock)
  deriving DecidableEq, Repr

structure Sys where
  procs : Procs Program Sock
  log : List Event

/-- `main` begins: one process, with no sockets. -/
def Sys.init : Sys where
  procs := Procs.single
    { parent := none
      ignoresChild := false
      state := { loc := .started, svr := CommSvrSocket.zeroed }
      table := FdTable.empty }
  log := []

/-- A live process holds a socket that listens on `port`. -/
def Sys.listeningOn (s : Sys) (port : UInt16) : Bool :=
  s.procs.any fun pr => pr.table.holds (.listening port)

/-! ## Steps -/

/-- What decides a step of a process: an answer of the environment, or a signal that ends it. -/
inductive Act
  | fork (ok : Bool)
  | waitpid (r : Option Pid)
  | wake
  /-- `get_comm_svr_cfg`, with what `do_process` makes of it. -/
  | config (r : Option CommSvrSocket)
  | socket (r : Option Fd)
  | bind
  | listen
  | select (rets : Int)
  | accept (r : Option Fd)
  | close
  | child (a : ChildAct)
  | die

/-- What a step comes to. -/
inductive Effect
  | goOn (pr : Process) (events : List Event)
  /-- A successful `fork`: where the parent goes on, and where the child does. -/
  | fork (handed : Option Sock) (here there : Loc)
  | reap (q : Pid)
  | exit (events : List Event)

/-- One step of the code of a process. -/
def codeStep (s : Sys) (p : Pid) (pr : Process) (a : Act) : Option Effect :=
  match pr.loc, a with
  | _, .die => some (.exit [.died p pr.inHand])
  -- `main`
  | .started, .fork ok | .reaped, .fork ok =>
      some (if ok then .fork none .polling .doProcess else .exit [])
  | .polling, .waitpid none =>
      if ∃ z ∈ s.procs.zombies, z.2 = p then none else some (.goOn (pr.goto .sleeping) [])
  | .polling, .waitpid (some q) => if (q, p) ∈ s.procs.zombies then some (.reap q) else none
  | .sleeping, .wake => some (.goOn (pr.goto .polling) [])
  -- `do_process`
  | .doProcess, .config none => some (.exit [])
  | .doProcess, .config (some svr) =>
      some (.goOn { pr with ignoresChild := true, state := { loc := .configured, svr := svr } } [])
  -- `tcp_listener`
  | .configured, .socket none => some (.exit [])
  | .configured, .socket (some fd) =>
      if h : fd ∉ pr.table.fds then
        some (.goOn ((pr.withTable (pr.table.insert fd .stream h)).goto (.socketMade fd)) [])
      else none
  | .socketMade fd, .bind =>
      some
        (if s.listeningOn pr.port then .exit [.refused p pr.port]
        else .goOn ((pr.withTable (pr.table.set fd (.bound pr.port))).goto (.bound fd)) [])
  | .bound fd, .listen =>
      some
        (if s.listeningOn pr.port then .exit [.refused p pr.port]
        else .goOn ((pr.withTable (pr.table.set fd (.listening pr.port))).goto (.loopHead fd)) [])
  -- `parent_proc`
  | .loopHead listenFd, .select rets =>
      some (.goOn (pr.goto (if rets ≤ 0 then .loopHead listenFd else .selected listenFd)) [])
  | .selected listenFd, .accept none => some (.goOn (pr.goto (.loopHead listenFd)) [])
  | .selected listenFd, .accept (some fd) =>
      if h : fd ∉ pr.table.fds then
        some
          (.goOn
            ((pr.withTable (pr.table.insert fd (.conn s.log.length) h)).goto (.accepted listenFd fd))
            [.accepted p s.log.length])
      else none
  | .accepted listenFd fd, .fork ok =>
      some
        (if ok then .fork (pr.table.get fd) (.forked listenFd fd) (.processMain fd Child.init)
        else .goOn (pr.goto (.forked listenFd fd)) [.forked p (pr.table.get fd) none])
  | .forked listenFd fd, .close =>
      some
        (.goOn ((pr.withTable (pr.table.close fd)).goto (.loopHead listenFd))
          [.closed p (pr.table.get fd)])
  -- The child of `fork_proc`
  | .processMain fd c, .child a =>
      (childStep pr.state.svr c a).map fun c' =>
        match c'.pc with
        | .closed =>
            .goOn ((pr.withTable (pr.table.close fd)).goto (.processMain fd c'))
              [.released p (pr.table.get fd)]
        | .exited => .exit []
        | _ => .goOn (pr.goto (.processMain fd c')) []
  | _, _ => none

/-- What the kernel makes of a step of the process `p`. -/
def Sys.apply (s : Sys) (p : Pid) (pr : Process) : Effect → Sys
  | .goOn pr' events =>
      { procs := s.procs.modify p fun _ => pr'
        log := s.log ++ events }
  | .fork handed here there =>
      { procs :=
          (s.procs.fork p pr { pr.state with loc := there }).modify p fun pr : Process =>
            pr.goto here
        log := s.log ++ [.forked p handed (some s.procs.next)] }
  | .reap q =>
      { s with procs := (s.procs.reap q p).modify p fun pr : Process => pr.goto .reaped }
  | .exit events =>
      { procs := s.procs.exit p pr
        log := s.log ++ events }

/-- One step of the service: a step of one of its processes. -/
def sysStep (s : Sys) (a : Pid × Act) : Option Sys :=
  (s.procs.proc a.1).bind fun pr => (codeStep s a.1 pr a.2).map (s.apply a.1 pr)

end CommServer
