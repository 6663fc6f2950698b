import CommServer.Src.ProcessParseSpec

/-!
# Reception — what `process_parse` knows about the message it parses

* `onlyComplete_iff` : Tuxedo is called for complete requests only, exactly when the reception is not
  cut off;
* `alwaysInside_iff` : the scans of `recv_msg` stay inside it for every reception of a stream,
  exactly when the stream is shorter than the array or brings a NUL of its own.
-/

namespace CommServer
namespace Exchange

open CLib Transition

/-! ## Receptions that are cut off -/

/-- The bytes one `recv` grants of those still missing. -/
def granted (rBufLen : Int) (missing n : Nat) : Nat :=
  min missing (min n rBufLen.toNat)

/-- The kernel and the peer cut a reception off: with `got` bytes delivered and `missing` more to
come, the answers `rounds` bring an end that is not the end of the request. -/
inductive CutOff (tmot rBufLen : Int) : Errno → Nat → Nat → List ReadRound → Prop
  /-- The wait expires or breaks with bytes missing, or before any byte. -/
  | stopped {e e' : Errno} {got missing : Nat} {r : ReadRound} {rs : List ReadRound}
      (hroom : got < maxbufLen)
      (hpoll : bclSockisreadable tmot e r.polls = some (.timedout, e') ∨
        bclSockisreadable tmot e r.polls = some (.broken, e'))
      (hpart : got = 0 ∨ 0 < missing) : CutOff tmot rBufLen e got missing (r :: rs)
  /-- `recv` fails. -/
  | failed {e e' e'' : Errno} {got missing : Nat} {r : ReadRound} {rs : List ReadRound}
      (hroom : got < maxbufLen) (hpoll : bclSockisreadable tmot e r.polls = some (.readable, e'))
      (hrecv : r.recv = .failed e'') (he : e'' ≠ .eintr) : CutOff tmot rBufLen e got missing (r :: rs)
  /-- `recv` returns zero. -/
  | ended {e e' : Errno} {got missing n : Nat} {r : ReadRound} {rs : List ReadRound}
      (hroom : got < maxbufLen) (hpoll : bclSockisreadable tmot e r.polls = some (.readable, e'))
      (hrecv : r.recv = .data n) (hnone : granted rBufLen missing n = 0) (he : e' ≠ .eintr) :
      CutOff tmot rBufLen e got missing (r :: rs)
  /-- A `recv` that is retried, because `errno` says so. -/
  | retry {e e' : Errno} {got missing : Nat} {r : ReadRound} {rs : List ReadRound}
      (hroom : got < maxbufLen) (hpoll : bclSockisreadable tmot e r.polls = some (.readable, e'))
      (hrecv : r.recv = .failed .eintr ∨
        e' = .eintr ∧ ∃ n, r.recv = .data n ∧ granted rBufLen missing n = 0)
      (hrest : CutOff tmot rBufLen .eintr got missing rs) : CutOff tmot rBufLen e got missing (r :: rs)
  /-- A part that comes before the cut. -/
  | more {e e' : Errno} {got missing n : Nat} {r : ReadRound} {rs : List ReadRound}
      (hroom : got < maxbufLen) (hpoll : bclSockisreadable tmot e r.polls = some (.readable, e'))
      (hrecv : r.recv = .data n) (hsome : granted rBufLen missing n ≠ 0)
      (hrest : CutOff tmot rBufLen e' (got + granted rBufLen missing n)
        (missing - granted rBufLen missing n) rs) : CutOff tmot rBufLen e got missing (r :: rs)

section Reading

variable {tmot rBufLen : Int} {stream : List Byte} {s : RecvSt maxbufLen} {rounds : List ReadRound}

/-- `recv_nbytes` ends, and not with the whole of a non-empty stream as its answer. -/
def EndsShort (stream : List Byte) (out : RecvSt maxbufLen × Option RecvEnd) : Prop :=
  ∃ v, out.2 = some (.ret v) ∧ ¬ (0 < v ∧ out.1.readed = stream.length) ∧
    out.1.readed < maxbufLen

/-- The invariant of the reception into the zeroed `recv_msg`. -/
abbrev Reading (stream : List Byte) (s : RecvSt maxbufLen) : Prop :=
  RecvInv (Buf.zeroed maxbufLen) maxbufLen stream s

theorem Reading.exit_none (h : Reading stream s) (tmot rBufLen : Int)
    (hroom : s.readed < maxbufLen) : (recvLoop tmot rBufLen).exit s = none := by
  have hcount := h.count
  exact recvLoop_exit_eq_none_iff.2 (by omega)

/-- A request that fits the array is never asked for in too small a piece. -/
theorem Reading.length_chunk (h : Reading stream s) (rBufLen : Int)
    (hfit : stream.length ≤ maxbufLen) (n : Nat) :
    (s.chunk rBufLen n).length = granted rBufLen (stream.length - s.readed) n := by
  have hcount := h.count
  have hbound := h.bound
  simp only [RecvSt.chunk, granted, h.inbox, List.length_take, List.length_drop]
  omega

/-- A reception that is cut off ends short. -/
theorem Reading.endsShort_of_cutOff (h : Reading stream s) (hfit : stream.length ≤ maxbufLen)
    (hcut : CutOff tmot rBufLen s.errno s.readed (stream.length - s.readed) rounds) :
    EndsShort stream ((recvLoop tmot rBufLen).run s rounds) := by
  -- On the rounds: each constructor of `CutOff` is one way a round can go.
  induction rounds generalizing s with
  | nil => cases hcut
  | cons r rs ih =>
      have hbound := h.bound
      cases hcut with
      | stopped hroom hpoll hpart =>
          rw [EventLoop.run_done (h.exit_none tmot rBufLen hroom) (recvRound_over hpoll)]
          refine ⟨s.atEnd, rfl, ?_, hroom⟩
          -- The count is zero, and `E_FAIL` is returned, or bytes are missing.
          rintro ⟨hpos, hall⟩
          have hread : s.readed = stream.length := hall
          rcases hpart with hzero | hmissing
          · simp [RecvSt.atEnd, hzero, eFail] at hpos
          · omega
      | failed hroom hpoll hrecv he =>
          have hround := recvRound_readable rBufLen hpoll
          rw [hrecv, recvReadable_failed he] at hround
          rw [EventLoop.run_done (h.exit_none tmot rBufLen hroom) hround]
          exact ⟨eFail, rfl, fun hgood => absurd hgood.1 (by decide), hroom⟩
      | ended hroom hpoll hrecv hnone he =>
          have hround := recvRound_readable rBufLen hpoll
          rw [hrecv, recvReadable_ended ((h.length_chunk rBufLen hfit _).trans hnone) he] at hround
          rw [EventLoop.run_done (h.exit_none tmot rBufLen hroom) hround]
          exact ⟨eFail, rfl, fun hgood => absurd hgood.1 (by decide), hroom⟩
      | retry hroom hpoll hrecv hrest =>
          have hround := recvRound_readable rBufLen hpoll
          have hagain : recvRound tmot rBufLen s r = .again { s with errno := .eintr } := by
            rcases hrecv with hrecv | ⟨he, n, hrecv, hnone⟩
            · rw [hround, hrecv, recvReadable_eintr]
            · rw [hround, hrecv, he, recvReadable_stale ((h.length_chunk rBufLen hfit _).trans hnone)]
          rw [EventLoop.run_again (h.exit_none tmot rBufLen hroom) hagain]
          exact ih (h.withErrno .eintr) hrest
      | more hroom hpoll hrecv hsome hrest =>
          have hround := recvRound_readable rBufLen hpoll
          have hchunk := h.length_chunk rBufLen hfit
          obtain ⟨s', hmore, hinv, herrno, hreaded⟩ :=
            h.more rBufLen (Nat.le_refl _) (by rw [hchunk]; exact hsome) _
          rw [hrecv, hmore] at hround
          rw [EventLoop.run_again (h.exit_none tmot rBufLen hroom) hround]
          apply ih hinv
          rw [herrno, hreaded, hchunk, ← Nat.sub_sub]
          exact hrest

/-- Without room the loop is left with the whole array as its answer. -/
theorem Reading.room_of_endsShort (h : Reading stream s)
    (hend : EndsShort stream ((recvLoop tmot rBufLen).run s rounds)) : s.readed < maxbufLen := by
  by_contra hfull
  have hcount := h.count
  have hexit : (recvLoop tmot rBufLen).exit s = some (.ret s.readed) :=
    recvLoop_exit_eq_some_iff.2 ⟨by omega, rfl⟩
  rcases hend with ⟨v, -, -, hroom⟩
  rw [EventLoop.run_of_exit hexit] at hroom
  exact hfull hroom

/-- A reception that ends short was cut off. -/
theorem Reading.cutOff_of_endsShort (h : Reading stream s) (hfit : stream.length ≤ maxbufLen)
    (hend : EndsShort stream ((recvLoop tmot rBufLen).run s rounds)) :
    CutOff tmot rBufLen s.errno s.readed (stream.length - s.readed) rounds := by
  -- On the rounds: each way a round can go gives its constructor of `CutOff`.
  induction rounds generalizing s with
  | nil =>
      have hexit := h.exit_none tmot rBufLen (h.room_of_endsShort hend)
      rcases hend with ⟨v, hv, -⟩
      rw [EventLoop.run_nil hexit] at hv
      cases hv
  | cons r rs ih =>
      have hroom := h.room_of_endsShort hend
      have hexit := h.exit_none tmot rBufLen hroom
      have hbound := h.bound
      have hchunk := h.length_chunk rBufLen hfit
      have hover : ∀ e, (bclSockisreadable tmot s.errno r.polls = some (.timedout, e) ∨
          bclSockisreadable tmot s.errno r.polls = some (.broken, e)) →
          CutOff tmot rBufLen s.errno s.readed (stream.length - s.readed) (r :: rs) := by
        intro e hpoll
        rw [EventLoop.run_done hexit (recvRound_over hpoll)] at hend
        rcases hend with ⟨v, hv, hbad, -⟩
        refine .stopped hroom hpoll ?_
        by_cases hzero : s.readed = 0
        · exact Or.inl hzero
        · right
          by_contra hall
          have hpos : s.readed > 0 := by omega
          have hret : ((s.readed : Int)) = v := by simpa [RecvSt.atEnd, hpos] using hv
          exact hbad ⟨by omega, show s.readed = stream.length by omega⟩
      -- What the wait says, then what `recv` answers.
      cases hpoll : bclSockisreadable tmot s.errno r.polls with
      | none =>
          rw [EventLoop.run_waiting hexit (recvRound_waiting hpoll)] at hend
          rcases hend with ⟨v, hv, -⟩
          cases hv
      | some ans =>
          rcases ans with ⟨status, e⟩
          cases status with
          | broken => exact hover e (Or.inr hpoll)
          | timedout => exact hover e (Or.inl hpoll)
          | readable =>
              have hround := recvRound_readable rBufLen hpoll
              cases hrecv : r.recv with
              | failed e' =>
                  by_cases he : e' = .eintr
                  · rw [hrecv, he, recvReadable_eintr] at hround
                    rw [EventLoop.run_again hexit hround] at hend
                    exact .retry hroom hpoll (Or.inl (he ▸ hrecv)) (ih (h.withErrno .eintr) hend)
                  · exact .failed hroom hpoll hrecv he
              | data n =>
                  by_cases hnone : granted rBufLen (stream.length - s.readed) n = 0
                  · have hzero := (hchunk n).trans hnone
                    by_cases he : e = .eintr
                    · rw [hrecv, he, recvReadable_stale hzero] at hround
                      rw [EventLoop.run_again hexit hround] at hend
                      exact .retry hroom hpoll (Or.inr ⟨he, n, hrecv, hnone⟩)
                        (ih (h.withErrno .eintr) hend)
                    · exact .ended hroom hpoll hrecv hnone he
                  · -- A part came, and the rest of the reception ends short too.
                    obtain ⟨s', hmore, hinv, herrno, hreaded⟩ :=
                      h.more rBufLen (Nat.le_refl _) (by rw [hchunk]; exact hnone) e
                    rw [hrecv, hmore] at hround
                    rw [EventLoop.run_again hexit hround] at hend
                    have hrest := ih hinv hend
                    rw [herrno, hreaded, hchunk, ← Nat.sub_sub] at hrest
                    exact .more hroom hpoll hrecv hnone hrest

end Reading

/-! ## Calls for complete requests only -/

/-- If Tuxedo is called, `recv_nbytes` has returned a positive count and `recv_msg` holds all that
the client sent. -/
def OnlyComplete (cfg : CommSvrSocket) (rx : Reception) (o : TuxOutcome) (tx : List SendResult) :
    Prop :=
  ∀ req, (processParse cfg rx o tx).request = some req →
    ∃ v, (receive cfg rx).2 = some (.ret v) ∧ 0 < v ∧
      (receive cfg rx).1.readed = rx.stream.length ∧
      (receive cfg rx).1.buf.bytes.take rx.stream.length = rx.stream

/-- The reception of `process_parse` is cut off. -/
def Interrupted (cfg : CommSvrSocket) (rx : Reception) : Prop :=
  CutOff (cfg.waterTimeout.tdiv 10) (bclGetrcvbuflen rx.rcvbuf) rx.errno 0 rx.stream.length
    rx.rounds

theorem reading_receive (cfg : CommSvrSocket) (rx : Reception) :
    Reading rx.stream (receive cfg rx).1 :=
  (recvNbytes_spec (Buf.zeroed maxbufLen) (Nat.le_refl _) (cfg.waterTimeout.tdiv 10) rx).1

theorem interrupted_iff (cfg : CommSvrSocket) {rx : Reception}
    (hfit : rx.stream.length ≤ maxbufLen) :
    Interrupted cfg rx ↔ EndsShort rx.stream (receive cfg rx) := by
  have hinit := recvInit_inv (Buf.zeroed maxbufLen) maxbufLen rx
  constructor
  · intro hcut
    exact Reading.endsShort_of_cutOff hinit hfit hcut
  · intro hend
    exact Reading.cutOff_of_endsShort hinit hfit hend

/-- A message that does not fill the array is terminated in it. -/
theorem Reading.terminated {stream : List Byte} {s : RecvSt maxbufLen} (h : Reading stream s)
    (hroom : s.readed < maxbufLen) : (0 : Byte) ∈ s.buf.bytes := by
  rw [h.bytes]
  refine List.mem_append_right _ ?_
  rw [Buf.bytes_zeroed, List.drop_replicate]
  exact List.mem_replicate.2 ⟨by omega, rfl⟩

/-- A reception that ends short is parsed and sent to Tuxedo all the same. -/
theorem not_onlyComplete_of_endsShort {cfg : CommSvrSocket} {rx : Reception}
    (h : EndsShort rx.stream (receive cfg rx)) (o : TuxOutcome) (tx : List SendResult) :
    ¬ OnlyComplete cfg rx o tx := by
  intro honly
  rcases h with ⟨v, hv, hbad, hroom⟩
  rcases parseRequest_spec ((reading_receive cfg rx).terminated hroom) with ⟨req, hreq, -⟩
  have hcalled : (processParse cfg rx o tx).request = some req := by
    simp [processParse, hv, parseReceived_request, hreq]
  rcases honly req hcalled with ⟨v', hv', hpos, hall, -⟩
  -- What was called had a whole request, but this one ended short.
  have hsame : v = v' := by simpa [hv] using hv'
  exact hbad ⟨hsame ▸ hpos, hall⟩

theorem onlyComplete_of_not_endsShort {cfg : CommSvrSocket} {rx : Reception}
    (hfit : rx.stream.length ≤ maxbufLen) (h : ¬ EndsShort rx.stream (receive cfg rx))
    (o : TuxOutcome) (tx : List SendResult) : OnlyComplete cfg rx o tx := by
  intro req hreq
  rcases processParse_called hreq with ⟨⟨v, hv⟩, -, -⟩
  have hread := reading_receive cfg rx
  have hcount := hread.count
  have hbound := hread.bound
  have hmax : maxbufLen = 10240 := rfl
  have hgood : 0 < v ∧ (receive cfg rx).1.readed = rx.stream.length := by
    by_contra hbad
    by_cases hroom : (receive cfg rx).1.readed < maxbufLen
    · exact h ⟨v, hv, hbad, hroom⟩
    · -- The array is full, so all of the request is in it and the loop condition ended the loop.
      have hret := (recvNbytes_spec (Buf.zeroed maxbufLen) (Nat.le_refl _)
        (cfg.waterTimeout.tdiv 10) rx).2 _ hv
      rcases hret with ⟨-, hleft⟩ | hret
      · have hleft' : 0 < (receive cfg rx).1.left := hleft
        omega
      · have hv' : v = (receive cfg rx).1.readed := RecvEnd.ret.inj hret
        exact hbad ⟨by omega, by omega⟩
  refine ⟨v, hv, hgood.1, hgood.2, ?_⟩
  rw [hread.bytes, hgood.2, List.take_length]
  exact List.take_left

/-- Tuxedo is called for complete requests only exactly when the reception is not cut off:
`process_parse` makes no difference between the answers of `recv_nbytes`. -/
theorem onlyComplete_iff (cfg : CommSvrSocket) (rx : Reception) (o : TuxOutcome)
    (tx : List SendResult) (hfit : rx.stream.length ≤ maxbufLen) :
    OnlyComplete cfg rx o tx ↔ ¬ Interrupted cfg rx := by
  rw [interrupted_iff cfg hfit]
  constructor
  · intro honly hend
    exact not_onlyComplete_of_endsShort hend o tx honly
  · intro h
    exact onlyComplete_of_not_endsShort hfit h o tx

theorem onlyComplete_sample :
    OnlyComplete CommSvrSocket.shipped (Reception.atOnce sampleRequest) (.returning 0 0 []) [] ↔
      ¬ Interrupted CommSvrSocket.shipped (Reception.atOnce sampleRequest) :=
  onlyComplete_iff _ _ _ _ (by decide)

/-- The simulator's request, of which 11 bytes arrive before the wait expires. -/
def tornReception : Reception :=
  { errno := .clear
    rcvbuf := .value 87380
    stream := sampleRequest
    rounds :=
      [{ polls := [.event true (.value 11)], recv := .data 11 },
       { polls := [.expired], recv := .failed .clear }] }

/-- Its first 11 bytes, `9$TOUPPER$a`, go to Tuxedo as a request with the data packet `a`. -/
theorem torn_request_called :
    ¬ ∀ (cfg : CommSvrSocket) (rx : Reception) (o : TuxOutcome) (tx : List SendResult),
      rx.stream.length ≤ maxbufLen → OnlyComplete cfg rx o tx := by
  intro h
  -- One part comes, and the next wait expires.
  have hcut : Interrupted CommSvrSocket.shipped tornReception :=
    .more (by decide) rfl rfl (by decide) (.stopped (by decide) (Or.inl rfl) (Or.inr (by decide)))
  have hend := (interrupted_iff CommSvrSocket.shipped (by decide)).1 hcut
  exact not_onlyComplete_of_endsShort hend (.returning 0 0 []) [] (h _ _ _ _ (by decide))

/-! ## The scans of `recv_msg` -/

/-- The `strlen` and both `get_str` calls on `recv_msg` read inside it. -/
def StaysInside (recvMsg : Buf maxbufLen) : Prop :=
  strlen recvMsg.bytes ≠ none ∧ getStr recvMsg.bytes 2 dlmtDollar ≠ none ∧
    getStr recvMsg.bytes 3 dlmtDollar ≠ none

/-- The scans stay inside exactly when there is a terminator. -/
theorem staysInside_iff_terminated (recvMsg : Buf maxbufLen) :
    StaysInside recvMsg ↔ (0 : Byte) ∈ recvMsg.bytes := by
  constructor
  · rintro ⟨hlen, -, -⟩
    rw [← strlen_isSome_iff]
    exact Option.isSome_iff_ne_none.2 hlen
  · intro h
    rcases eq_cstr_append_zero h with ⟨rest, hrest⟩
    have hread : ∀ i : Nat, getStr recvMsg.bytes ((i : Int) + 1) dlmtDollar ≠ none := by
      intro i
      obtain ⟨p, hp, -⟩ := getStr_spec (d := [dollar]) (z := []) (by decide)
        (List.cons_ne_nil _ _) (zero_not_mem_cstr recvMsg.bytes) rest i
      rw [← hrest] at hp
      have hsome : getStr recvMsg.bytes ((i : Int) + 1) dlmtDollar = some p := hp
      simp [hsome]
    exact ⟨by simp [strlen_of_mem h], hread 1, hread 2⟩

/-- Every reception of `stream` leaves a `recv_msg` that the scans do not leave. -/
def AlwaysInside (cfg : CommSvrSocket) (stream : List Byte) : Prop :=
  ∀ rx : Reception, rx.stream = stream → (∃ v, (receive cfg rx).2 = some (.ret v)) →
    StaysInside (receive cfg rx).1.buf

/-- A reception that leaves room leaves the zero bytes of `memset` behind the message. -/
theorem staysInside_of_stream {cfg : CommSvrSocket} {stream : List Byte}
    (h : stream.length < maxbufLen ∨ (0 : Byte) ∈ stream.take maxbufLen) :
    AlwaysInside cfg stream := by
  rintro rx rfl -
  have hread := reading_receive cfg rx
  have hcount := hread.count
  have hbound := hread.bound
  rw [staysInside_iff_terminated]
  by_cases hroom : (receive cfg rx).1.readed < maxbufLen
  · exact hread.terminated hroom
  · -- The array is the front of the stream, and a NUL in it is a NUL of the client.
    have hfull : (receive cfg rx).1.readed = maxbufLen := by omega
    rcases h with hshort | hnul
    · omega
    · rw [hread.bytes, hfull]
      exact List.mem_append_left _ hnul

theorem not_alwaysInside_of_long {cfg : CommSvrSocket} {stream : List Byte}
    (hlong : maxbufLen ≤ stream.length) (hfree : (0 : Byte) ∉ stream.take maxbufLen) :
    ¬ AlwaysInside cfg stream := by
  intro h
  rcases receive_atOnce_full cfg hlong with ⟨hend, hbytes⟩
  have hinside := h (Reception.atOnce stream) rfl ⟨_, hend⟩
  rw [staysInside_iff_terminated, hbytes] at hinside
  exact hfree hinside

/-- The scans of `recv_msg` stay inside it, however a stream is received, exactly when the stream is
shorter than the array or has a NUL among its first `MAXBUF_LEN` bytes: `recv_nbytes` is asked for
one byte too many. -/
theorem alwaysInside_iff (cfg : CommSvrSocket) (stream : List Byte) :
    AlwaysInside cfg stream ↔
      stream.length < maxbufLen ∨ (0 : Byte) ∈ stream.take maxbufLen := by
  constructor
  · intro h
    by_contra hnot
    rw [not_or] at hnot
    exact not_alwaysInside_of_long (Nat.le_of_not_lt hnot.1) hnot.2 h
  · intro h
    exact staysInside_of_stream h

/-- 10240 bytes `a` fill the array, and the first `strlen` leaves it. -/
theorem full_array_overread :
    ¬ ∀ (cfg : CommSvrSocket) (stream : List Byte), AlwaysInside cfg stream := by
  intro h
  have hlong : maxbufLen ≤ (List.replicate maxbufLen (0x61 : Byte)).length :=
    List.length_replicate.ge
  have hfree : (0 : Byte) ∉ (List.replicate maxbufLen (0x61 : Byte)).take maxbufLen := by
    intro hmem
    have heq : (0 : Byte) = 0x61 := List.eq_of_mem_replicate (List.mem_of_mem_take hmem)
    exact absurd heq (by decide)
  exact not_alwaysInside_of_long hlong hfree (h CommSvrSocket.shipped _)

end Exchange
end CommServer
