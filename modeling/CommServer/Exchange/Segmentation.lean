import CommServer.Exchange.Reception

/-!
# Segmentation — what is received does not depend on how it comes

`Delivers` describes the scripts that bring a byte string `r` to `recv_nbytes`: in parts of any size,
with any number of interruptions of `select` and `recv`, and with a timeout or an orderly close at its
end.  `Delivers.outcome` gives the buffer and the return value as functions of `r` and `len` alone, so
that two such scripts cannot be told apart (`segmentation_irrelevant`).
-/

namespace CommServer
namespace Exchange

open CLib Transition

/-! ## Scripts that deliver a byte string -/

/-- An answer of `select` that `bcl_sockisreadable` waits through. -/
def Harmless (p : SelectResult) : Prop :=
  p = .failed .eintr ∨ ∃ f, p = .event false f

/-- `p` is the first answer that `bcl_sockisreadable` acts on. -/
def Polled (polls : List SelectResult) (p : SelectResult) : Prop :=
  ∃ noise rest, polls = noise ++ p :: rest ∧ ∀ q ∈ noise, Harmless q

/-- The bytes that a `recv` returns when it grants up to `n`. -/
def recvSize (rBufLen : Int) (missing room n : Nat) : Nat :=
  min missing (min n (min room rBufLen.toNat))

/-- The rounds bring `missing` bytes to a buffer with room for `room`, and then end. -/
inductive Segments (tmot rBufLen : Int) : Nat → Nat → List ReadRound → Prop
  /-- The buffer is full. -/
  | full {missing : Nat} {rs : List ReadRound} : Segments tmot rBufLen missing 0 rs
  /-- One part comes. -/
  | part {missing room n : Nat} {v : Int} {r : ReadRound} {rs : List ReadRound}
      (hroom : 0 < room) (hmissing : 0 < missing) (hv : 0 < v) (hn : 0 < n)
      (hpoll : Polled r.polls (.event true (.value v))) (hrecv : r.recv = .data n)
      (hrest : Segments tmot rBufLen (missing - recvSize rBufLen missing room n)
        (room - recvSize rBufLen missing room n) rs) : Segments tmot rBufLen missing room (r :: rs)
  /-- `recv` is interrupted. -/
  | interrupted {missing room : Nat} {v : Int} {r : ReadRound} {rs : List ReadRound}
      (hroom : 0 < room) (hv : 0 < v) (hpoll : Polled r.polls (.event true (.value v)))
      (hrecv : r.recv = .failed .eintr) (hrest : Segments tmot rBufLen missing room rs) :
      Segments tmot rBufLen missing room (r :: rs)
  /-- Everything has come, and the wait expires. -/
  | timeout {room : Nat} {r : ReadRound} {rs : List ReadRound} (hroom : 0 < room)
      (htmot : 0 ≤ tmot) (hpoll : Polled r.polls .expired) : Segments tmot rBufLen 0 room (r :: rs)
  /-- Everything has come, and the peer has closed. -/
  | closed {room : Nat} {r : ReadRound} {rs : List ReadRound} (hroom : 0 < room)
      (hpoll : Polled r.polls (.event true (.value 0))) : Segments tmot rBufLen 0 room (r :: rs)

/-- The reception brings `r` to a `recv_nbytes` of `len` bytes. -/
structure Delivers (rx : Reception) (r : List Byte) (len : Nat) (tmot : Int) : Prop where
  stream : rx.stream = r
  segments : Segments tmot (bclGetrcvbuflen rx.rcvbuf) r.length len rx.rounds

/-! ## One wait -/

/-- The wait goes on to the first answer that counts. -/
theorem bclSockisreadable_polled (tmval : Int) {polls : List SelectResult} {p : SelectResult}
    (h : Polled polls p) (e : Errno) :
    ∃ e' rest, bclSockisreadable tmval e polls = bclSockisreadable tmval e' (p :: rest) := by
  rcases h with ⟨noise, rest, rfl, hnoise⟩
  induction noise generalizing e with
  | nil => exact ⟨e, rest, rfl⟩
  | cons q noise ih =>
      have hrest : ∀ q' ∈ noise, Harmless q' := fun q' hq' =>
        hnoise q' (List.mem_cons_of_mem _ hq')
      rcases hnoise q List.mem_cons_self with rfl | ⟨f, rfl⟩
      · -- The interruption leaves its `errno`.
        rcases ih .eintr hrest with ⟨e', rest', heq⟩
        exact ⟨e', rest', by simpa [bclSockisreadable] using heq⟩
      · rcases ih e hrest with ⟨e', rest', heq⟩
        exact ⟨e', rest', by simpa [bclSockisreadable] using heq⟩

theorem polled_readable (tmval : Int) {polls : List SelectResult} {v : Int} (hv : 0 < v)
    (h : Polled polls (.event true (.value v))) (e : Errno) :
    ∃ e', bclSockisreadable tmval e polls = some (.readable, e') := by
  rcases bclSockisreadable_polled tmval h e with ⟨e', rest, heq⟩
  refine ⟨e', ?_⟩
  rw [heq]
  simp [bclSockisreadable, bclBytesreadable, Int.not_le.2 hv]

theorem polled_closed (tmval : Int) {polls : List SelectResult}
    (h : Polled polls (.event true (.value 0))) (e : Errno) :
    ∃ e', bclSockisreadable tmval e polls = some (.broken, e') := by
  rcases bclSockisreadable_polled tmval h e with ⟨e', rest, heq⟩
  refine ⟨e', ?_⟩
  rw [heq]
  simp [bclSockisreadable, bclBytesreadable, IoctlResult.errno]

theorem polled_expired {tmval : Int} (htm : 0 ≤ tmval) {polls : List SelectResult}
    (h : Polled polls .expired) (e : Errno) :
    ∃ e', bclSockisreadable tmval e polls = some (.timedout, e') := by
  rcases bclSockisreadable_polled tmval h e with ⟨e', rest, heq⟩
  refine ⟨e', ?_⟩
  rw [heq]
  simp [bclSockisreadable, htm]

/-! ## The whole reception -/

section Outcome

variable {k : Nat} {buf₀ : Buf k} {len : Nat} {stream : List Byte} {s : RecvSt k}
  {tmot rBufLen : Int}

/-- The value that `recv_nbytes` returns for `r`. -/
def countOf (r : List Byte) (len : Nat) : Int :=
  if r = [] ∧ 0 < len then eFail else (min r.length len : Nat)

theorem length_chunk_eq (h : RecvInv buf₀ len stream s) (rBufLen : Int) (n : Nat) :
    (s.chunk rBufLen n).length = recvSize rBufLen (stream.length - s.readed) s.left n := by
  simp only [RecvSt.chunk, recvSize, h.inbox, List.length_take, List.length_drop]
  omega

/-- What `recv_nbytes` leaves when `stream` is delivered to it. -/
structure Outcome (buf₀ : Buf k) (len : Nat) (stream : List Byte)
    (out : RecvSt k × Option RecvEnd) : Prop where
  inv : RecvInv buf₀ len stream out.1
  readed : out.1.readed = min stream.length len
  ret : out.2 = some (.ret (countOf stream len))

/-- The end of the input after everything has come. -/
theorem outcome_atEnd (h : RecvInv buf₀ len stream s) (hall : stream.length - s.readed = 0)
    (hroom : 0 < s.left) (e : Errno) :
    Outcome buf₀ len stream ({ s with errno := e }, some (.ret s.atEnd)) := by
  have hcount := h.count
  have hbound := h.bound
  have hread : s.readed = stream.length := by omega
  have hmin : min stream.length len = stream.length := by omega
  refine ⟨h.withErrno e, ?_, ?_⟩
  · dsimp only
    rw [hread, hmin]
  · -- Without a byte the count is zero, and `E_FAIL` is returned.
    rcases Nat.eq_zero_or_pos stream.length with hzero | hpos
    · have hnil : stream = [] := List.length_eq_zero_iff.1 hzero
      have hlen : 0 < len := by omega
      simp [RecvSt.atEnd, countOf, hread, hnil, hlen]
    · have hne : stream ≠ [] := List.length_pos_iff.1 hpos
      simp [RecvSt.atEnd, countOf, hread, hmin, hpos, hne]

/-- A script that delivers the rest of the stream takes the loop to its outcome. -/
theorem outcome_of_segments (hlen : len ≤ k) (hbuf : 0 < rBufLen) {rounds : List ReadRound}
    {missing room : Nat} (hseg : Segments tmot rBufLen missing room rounds)
    (h : RecvInv buf₀ len stream s) (hmissing : stream.length - s.readed = missing)
    (hroom : s.left = room) :
    Outcome buf₀ len stream ((recvLoop tmot rBufLen).run s rounds) := by
  -- Each constructor of `Segments` is one way a round can go.
  induction hseg generalizing s with
  | full =>
      have hcount := h.count
      have hbound := h.bound
      have hexit : (recvLoop tmot rBufLen).exit s = some (.ret s.readed) :=
        recvLoop_exit_eq_some_iff.2 ⟨by omega, rfl⟩
      have hmin : min stream.length len = s.readed := by omega
      rw [EventLoop.run_of_exit hexit]
      refine ⟨h, hmin.symm, ?_⟩
      have hsome : ¬ (stream = [] ∧ 0 < len) := by
        rintro ⟨hnil, hpos⟩
        rw [hnil, List.length_nil] at hbound
        omega
      simp [countOf, hsome, hmin]
  | @part missing room n v r rs hpos hmore hv hn hpoll hrecv _ ih =>
      have hcount := h.count
      have hexit : (recvLoop tmot rBufLen).exit s = none :=
        recvLoop_exit_eq_none_iff.2 (by omega)
      have hchunk := length_chunk_eq h rBufLen
      rw [hmissing, hroom] at hchunk
      rcases polled_readable tmot hv hpoll s.errno with ⟨e, hready⟩
      have hround := recvRound_readable rBufLen hready
      have hsome : (s.chunk rBufLen n).length ≠ 0 := by
        rw [hchunk]
        unfold recvSize
        omega
      rcases h.more rBufLen hlen hsome e with ⟨s', hagain, hinv, -, hreaded⟩
      rw [hrecv, hagain] at hround
      rw [EventLoop.run_again hexit hround]
      have hcount' := hinv.count
      rw [hchunk] at hreaded
      exact ih hinv (by omega) (by omega)
  | interrupted hpos hv hpoll hrecv _ ih =>
      have hexit : (recvLoop tmot rBufLen).exit s = none :=
        recvLoop_exit_eq_none_iff.2 (by omega)
      rcases polled_readable tmot hv hpoll s.errno with ⟨e, hready⟩
      have hround := recvRound_readable rBufLen hready
      rw [hrecv, recvReadable_eintr] at hround
      rw [EventLoop.run_again hexit hround]
      exact ih (h.withErrno .eintr) hmissing hroom
  | timeout hpos htmot hpoll =>
      have hexit : (recvLoop tmot rBufLen).exit s = none :=
        recvLoop_exit_eq_none_iff.2 (by omega)
      rcases polled_expired htmot hpoll s.errno with ⟨e, hover⟩
      rw [EventLoop.run_done hexit (recvRound_over (.inl hover))]
      exact outcome_atEnd h hmissing (by omega) e
  | closed hpos hpoll =>
      have hexit : (recvLoop tmot rBufLen).exit s = none :=
        recvLoop_exit_eq_none_iff.2 (by omega)
      rcases polled_closed tmot hpoll s.errno with ⟨e, hover⟩
      rw [EventLoop.run_done hexit (recvRound_over (.inr hover))]
      exact outcome_atEnd h hmissing (by omega) e

/-- `recv_nbytes` on any script that delivers `r`. -/
theorem Delivers.outcome {rx : Reception} {r : List Byte} (hlen : len ≤ k)
    (h : Delivers rx r len tmot) (buf₀ : Buf k) :
    Outcome buf₀ len r (recvNbytes buf₀ len tmot rx) := by
  have hinit := recvInit_inv buf₀ len rx
  rw [h.stream] at hinit
  exact outcome_of_segments hlen (bclGetrcvbuflen_pos rx.rcvbuf) h.segments hinit
    (by simp [recvInit]) rfl

/-- The buffer holds the bytes there was room for, in front of its old contents. -/
theorem Outcome.bytes {out : RecvSt k × Option RecvEnd} (h : Outcome buf₀ len stream out) :
    out.1.buf.bytes =
      stream.take (min stream.length len) ++ buf₀.bytes.drop (min stream.length len) := by
  rw [h.inv.bytes, h.readed]

end Outcome

/-! ## Two receptions of one byte string -/

/-- The request depends on `recv_msg` and on whether `recv_nbytes` returned. -/
theorem processParse_request_eq {cfg : CommSvrSocket} {rx : Reception} {r : List Byte}
    (h : Outcome (Buf.zeroed maxbufLen) maxbufLen r (receive cfg rx)) (o : TuxOutcome)
    (tx : List SendResult) :
    (processParse cfg rx o tx).request = parseRequest (receive cfg rx).1.buf := by
  have hrun : processParse cfg rx o tx = parseReceived cfg (receive cfg rx).1.buf o tx := by
    simp [processParse, h.ret]
  rw [hrun, parseReceived_request]

/-- However far a reception has come, nothing is stored from `len` on. -/
theorem recvNbytes_untouched {k : Nat} (buf : Buf k) {len : Nat} (hlen : len ≤ k) (tmot : Int)
    (rx : Reception) :
    (recvNbytes buf len tmot rx).1.buf.bytes.drop len = buf.bytes.drop len := by
  rcases recvNbytes_spec buf hlen tmot rx with ⟨hinv, -⟩
  have hcount := hinv.count
  have hbound := hinv.bound
  rw [hinv.bytes, List.drop_append, List.drop_drop, List.length_take, Nat.min_eq_left hbound]
  have hpast : (rx.stream.take (recvNbytes buf len tmot rx).1.readed).drop len = [] := by
    apply List.drop_eq_nil_of_le
    rw [List.length_take]
    omega
  rw [hpast, List.nil_append]
  congr 1
  omega

/-- What `recv_nbytes` stores and returns is a function of the bytes that come, and not of their
parts, of interruptions, of the receive buffer or of the way the input ends; and so is what
`process_parse` takes from them. -/
theorem segmentation_irrelevant (r : List Byte) :
    (∀ {k : Nat} (buf : Buf k) (len : Nat) (tmot : Int) (rx₁ rx₂ : Reception), len ≤ k →
        Delivers rx₁ r len tmot → Delivers rx₂ r len tmot →
        (recvNbytes buf len tmot rx₁).1.buf = (recvNbytes buf len tmot rx₂).1.buf ∧
          (recvNbytes buf len tmot rx₁).2 = (recvNbytes buf len tmot rx₂).2 ∧
          (recvNbytes buf len tmot rx₁).1.buf.bytes =
            r.take (min r.length len) ++ buf.bytes.drop (min r.length len) ∧
          (recvNbytes buf len tmot rx₁).2 = some (.ret (countOf r len)) ∧
          ∀ rounds, rounds <+: rx₁.rounds →
            (recvNbytes buf len tmot { rx₁ with rounds := rounds }).1.buf.bytes.drop len =
              buf.bytes.drop len) ∧
      ∀ cfg rx₁ rx₂, Delivers rx₁ r maxbufLen (cfg.waterTimeout.tdiv 10) →
        Delivers rx₂ r maxbufLen (cfg.waterTimeout.tdiv 10) →
        ∀ o₁ o₂ tx₁ tx₂, (processParse cfg rx₁ o₁ tx₁).request =
          (processParse cfg rx₂ o₂ tx₂).request := by
  have hsame {k : Nat} (buf : Buf k) {len : Nat} {tmot : Int} {rx₁ rx₂ : Reception} (hlen : len ≤ k)
      (h₁ : Delivers rx₁ r len tmot) (h₂ : Delivers rx₂ r len tmot) :
      (recvNbytes buf len tmot rx₁).1.buf = (recvNbytes buf len tmot rx₂).1.buf :=
    Buf.ext ((h₁.outcome hlen buf).bytes.trans (h₂.outcome hlen buf).bytes.symm)
  constructor
  · intro k buf len tmot rx₁ rx₂ hlen h₁ h₂
    have hout₁ := h₁.outcome hlen buf
    have hout₂ := h₂.outcome hlen buf
    exact ⟨hsame buf hlen h₁ h₂, hout₁.ret.trans hout₂.ret.symm, hout₁.bytes, hout₁.ret,
      fun rounds _ => recvNbytes_untouched buf hlen tmot _⟩
  · intro cfg rx₁ rx₂ h₁ h₂ o₁ o₂ tx₁ tx₂
    have hbuf := hsame (Buf.zeroed maxbufLen) (Nat.le_refl _) h₁ h₂
    calc
      (processParse cfg rx₁ o₁ tx₁).request
          = parseRequest (receive cfg rx₁).1.buf :=
            processParse_request_eq (h₁.outcome (Nat.le_refl _) _) o₁ tx₁
      _ = parseRequest (receive cfg rx₂).1.buf := congrArg parseRequest hbuf
      _ = (processParse cfg rx₂ o₂ tx₂).request :=
            (processParse_request_eq (h₂.outcome (Nat.le_refl _) _) o₂ tx₂).symm

/-- A request in one part, with the next wait expiring. -/
def wholeReception : Reception :=
  { errno := .clear
    rcvbuf := .value 87380
    stream := ascii "9$TOUPPER$a"
    rounds :=
      [{ polls := [.event true (.value 11)], recv := .data 11 },
       { polls := [.expired], recv := .failed .clear }] }

/-- The same request in two parts with interruptions, and a close behind it. -/
def piecedReception : Reception :=
  { errno := .eintr
    rcvbuf := .value 0
    stream := ascii "9$TOUPPER$a"
    rounds :=
      [{ polls := [.failed .eintr, .event true (.value 2)], recv := .failed .eintr },
       { polls := [.event true (.value 2)], recv := .data 2 },
       { polls := [.failed .eintr, .event true (.value 9)], recv := .data 10000 },
       { polls := [.event true (.value 0)], recv := .failed .clear }] }

theorem segmentation_sample (o₁ o₂ : TuxOutcome) (tx₁ tx₂ : List SendResult) :
    (processParse CommSvrSocket.shipped wholeReception o₁ tx₁).request =
      (processParse CommSvrSocket.shipped piecedReception o₂ tx₂).request := by
  have hat (p : SelectResult) : Polled [p] p := ⟨[], [], rfl, by simp⟩
  have hlate (p : SelectResult) : Polled [.failed .eintr, p] p :=
    ⟨[.failed .eintr], [], rfl, by simp [Harmless]⟩
  have hwhole : Delivers wholeReception (ascii "9$TOUPPER$a") maxbufLen
      (CommSvrSocket.shipped.waterTimeout.tdiv 10) := by
    refine ⟨rfl, ?_⟩
    refine .part (v := 11) (n := 11) (by decide) (by decide) (by decide) (by decide) (hat _) rfl ?_
    exact .timeout (by decide) (by decide) (hat _)
  have hpieced : Delivers piecedReception (ascii "9$TOUPPER$a") maxbufLen
      (CommSvrSocket.shipped.waterTimeout.tdiv 10) := by
    refine ⟨rfl, ?_⟩
    refine .interrupted (v := 2) (by decide) (by decide) (hlate _) rfl ?_
    refine .part (v := 2) (n := 2) (by decide) (by decide) (by decide) (by decide) (hat _) rfl ?_
    refine .part (v := 9) (n := 10000) (by decide) (by decide) (by decide) (by decide) (hlate _) rfl ?_
    exact .closed (by decide) (hat _)
  exact (segmentation_irrelevant _).2 _ _ _ hwhole hpieced o₁ o₂ tx₁ tx₂

end Exchange
end CommServer
