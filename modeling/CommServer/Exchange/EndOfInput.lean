import CommServer.LibSrc.SocketSpec

/-!
# EndOfInput — what `recv_nbytes` answers when the input ends

The end of the input shows in three places: an expired `select`, a `FIONREAD` of zero or a broken
wait, and a `recv` that returns zero.  `EndKept` says of one round what all three should come to: the
count of what was stored, whatever was interrupted before.

The first two do.  A `recv` of zero is caught by `cnt <= 0` together with the failures, and the
`errno` it is judged by is an old one.  `endKept_iff` says that this is the only way to lose what came.
-/

namespace CommServer
namespace Exchange

open CLib Transition

/-! ## One round -/

/-- The polls without the interruptions among them. -/
def quietPolls (polls : List SelectResult) : List SelectResult :=
  polls.filter (· ≠ .failed .eintr)

/-- Two rounds with the same answers but for interrupted waits. -/
structure SameAnswers (r r' : ReadRound) : Prop where
  polls : quietPolls r'.polls = quietPolls r.polls
  recv : r'.recv = r.recv

section Round

variable {k : Nat}

/-- A wait that is over ends in a `recv` of zero. -/
def RecvEmpty (tmot rBufLen : Int) (s : RecvSt k) (r : ReadRound) : Prop :=
  ∃ e n, bclSockisreadable tmot s.errno r.polls = some (.readable, e) ∧ r.recv = .data n ∧
    s.chunk rBufLen n = []

/-- `recv` reports an error of its own. -/
def RecvFailed (tmot : Int) (s : RecvSt k) (r : ReadRound) : Prop :=
  ∃ e e', bclSockisreadable tmot s.errno r.polls = some (.readable, e) ∧ r.recv = .failed e' ∧
    e' ≠ .eintr

/-- The input ends: by a timeout, by a broken wait, or by a `recv` of zero. -/
def InputEnds (tmot rBufLen : Int) (s : RecvSt k) (r : ReadRound) : Prop :=
  (∃ e, bclSockisreadable tmot s.errno r.polls = some (.timedout, e)) ∨
    (∃ e, bclSockisreadable tmot s.errno r.polls = some (.broken, e)) ∨
      RecvEmpty tmot rBufLen s r

/-- What `recv_nbytes` has returned after the round `r`, entered in `s`. -/
def answer (tmot rBufLen : Int) (s : RecvSt k) (r : ReadRound) : Option RecvEnd :=
  ((recvLoop tmot rBufLen).run s [r]).2

/-- The end of the input discards nothing in this round. -/
structure EndKept (tmot rBufLen : Int) (s : RecvSt k) (r : ReadRound) : Prop where
  /-- After a byte came, the end of the input returns the count. -/
  kept : InputEnds tmot rBufLen s r → 0 < s.readed →
    answer tmot rBufLen s r = some (.ret s.readed)
  failed : answer tmot rBufLen s r = some (.ret eFail) →
    s.readed = 0 ∨ RecvFailed tmot s r
  /-- Interruptions, in this round or before it, make no difference. -/
  history : ∀ e r', SameAnswers r r' →
    answer tmot rBufLen { s with errno := e } r' = answer tmot rBufLen s r

end Round

/-! ## The wait without its interruptions -/

theorem fst_bclSockisreadable_quiet (tmval : Int) (polls : List SelectResult) (e e' : Errno) :
    (bclSockisreadable tmval e polls).map Prod.fst =
      (bclSockisreadable tmval e' (quietPolls polls)).map Prod.fst := by
  induction polls generalizing e e' with
  | nil => rfl
  | cons p polls ih =>
      cases p with
      | expired =>
          by_cases htm : tmval ≥ 0
          · simp [quietPolls, bclSockisreadable, htm]
          · simpa [quietPolls, bclSockisreadable, htm] using ih e e'
      | failed e'' =>
          by_cases he : e'' = .eintr
          · simpa [quietPolls, bclSockisreadable, he] using ih .eintr e'
          · simp [quietPolls, bclSockisreadable, he]
      | event isset fionread =>
          cases isset with
          | true =>
              by_cases hv : bclBytesreadable fionread ≤ 0
              · simp [quietPolls, bclSockisreadable, hv]
              · simp [quietPolls, bclSockisreadable, hv]
          | false => simpa [quietPolls, bclSockisreadable] using ih e e'

/-- Without interruptions a wait that ends with data leaves `errno` alone. -/
theorem readable_quiet {tmval : Int} {polls : List SelectResult} {e e' : Errno}
    (h : bclSockisreadable tmval e polls = some (.readable, e')) (e₀ : Errno) :
    bclSockisreadable tmval e₀ (quietPolls polls) = some (.readable, e₀) := by
  induction polls generalizing e with
  | nil => simp [bclSockisreadable] at h
  | cons p polls ih =>
      cases p with
      | expired =>
          by_cases htm : tmval ≥ 0
          · simp [bclSockisreadable, htm] at h
          · simp only [bclSockisreadable, htm, if_false] at h
            simpa [quietPolls, bclSockisreadable, htm] using ih h
      | failed e'' =>
          by_cases he : e'' = .eintr
          · simp only [bclSockisreadable, he, if_true] at h
            simpa [quietPolls, he] using ih h
          · simp [bclSockisreadable, he] at h
      | event isset fionread =>
          cases isset with
          | true =>
              by_cases hv : bclBytesreadable fionread ≤ 0
              · simp [bclSockisreadable, hv] at h
              · simp [quietPolls, bclSockisreadable, hv]
          | false =>
              have hrest : bclSockisreadable tmval e polls = some (.readable, e') := by
                simpa [bclSockisreadable] using h
              simpa [quietPolls, bclSockisreadable] using ih hrest

/-! ## The answer of one round -/

section Answer

variable {k : Nat} {buf₀ : Buf k} {len : Nat} {stream : List Byte} {s : RecvSt k}
  {tmot rBufLen : Int} {r r' : ReadRound} {e : Errno}

theorem exit_none (hleft : 0 < s.left) : (recvLoop tmot rBufLen).exit s = none :=
  recvLoop_exit_eq_none_iff.2 hleft

theorem answer_waiting (hleft : 0 < s.left) (hpoll : bclSockisreadable tmot s.errno r.polls = none) :
    answer tmot rBufLen s r = none := by
  rw [answer, EventLoop.run_waiting (exit_none hleft) (recvRound_waiting hpoll)]

theorem answer_over (hleft : 0 < s.left)
    (hpoll : bclSockisreadable tmot s.errno r.polls = some (.timedout, e) ∨
      bclSockisreadable tmot s.errno r.polls = some (.broken, e)) :
    answer tmot rBufLen s r = some (.ret s.atEnd) := by
  rw [answer, EventLoop.run_done (exit_none hleft) (recvRound_over hpoll)]

theorem answer_again {s' : RecvSt k} (hleft : 0 < s.left)
    (hround : recvRound tmot rBufLen s r = .again s') :
    answer tmot rBufLen s r = (recvLoop tmot rBufLen).exit s' := by
  rw [answer, EventLoop.run_again (exit_none hleft) hround]
  rfl

theorem answer_failed {e' : Errno} (hleft : 0 < s.left)
    (hpoll : bclSockisreadable tmot s.errno r.polls = some (.readable, e))
    (hrecv : r.recv = .failed e') :
    answer tmot rBufLen s r = if e' = .eintr then none else some (.ret eFail) := by
  have hround := recvRound_readable rBufLen hpoll
  rw [hrecv] at hround
  by_cases he : e' = .eintr
  · rw [he, recvReadable_eintr] at hround
    rw [answer_again hleft hround, if_pos he]
    exact exit_none hleft
  · rw [recvReadable_failed he] at hround
    rw [answer, EventLoop.run_done (exit_none hleft) hround, if_neg he]

/-- A `recv` of zero ends the reception or is retried, by what `errno` held before it. -/
theorem answer_empty {n : Nat} (hleft : 0 < s.left)
    (hpoll : bclSockisreadable tmot s.errno r.polls = some (.readable, e))
    (hrecv : r.recv = .data n) (hnone : s.chunk rBufLen n = []) :
    answer tmot rBufLen s r = if e = .eintr then none else some (.ret eFail) := by
  have hround := recvRound_readable rBufLen hpoll
  have hzero : (s.chunk rBufLen n).length = 0 := by simp [hnone]
  rw [hrecv] at hround
  by_cases he : e = .eintr
  · rw [he, recvReadable_stale hzero] at hround
    rw [answer_again hleft hround, if_pos he]
    exact exit_none hleft
  · rw [recvReadable_ended hzero he] at hround
    rw [answer, EventLoop.run_done (exit_none hleft) hround, if_neg he]

/-- A part that comes fills the buffer, or leaves `recv_nbytes` waiting for more. -/
theorem answer_part (hlen : len ≤ k) (h : RecvInv buf₀ len stream s) {n : Nat} (hleft : 0 < s.left)
    (hpoll : bclSockisreadable tmot s.errno r.polls = some (.readable, e))
    (hrecv : r.recv = .data n) (hsome : s.chunk rBufLen n ≠ []) :
    answer tmot rBufLen s r =
      if s.readed + (s.chunk rBufLen n).length < len then none
      else some (.ret (s.readed + (s.chunk rBufLen n).length : Nat)) := by
  have hround := recvRound_readable rBufLen hpoll
  have hpos : (s.chunk rBufLen n).length ≠ 0 := by simpa using hsome
  rcases h.more rBufLen hlen hpos e with ⟨s', hagain, hinv, -, hreaded⟩
  have hcount := hinv.count
  rw [hrecv, hagain] at hround
  rw [answer_again hleft hround]
  split
  · exact recvLoop_exit_eq_none_iff.2 (by omega)
  · exact recvLoop_exit_eq_some_iff.2 ⟨by omega, by rw [hreaded]⟩

/-- Without a `recv` of zero the answer depends on the answers of this round only. -/
theorem answer_same (hlen : len ≤ k) (h : RecvInv buf₀ len stream s) (hleft : 0 < s.left)
    (hnot : ¬ RecvEmpty tmot rBufLen s r) (hsame : SameAnswers r r') (e : Errno) :
    answer tmot rBufLen { s with errno := e } r' = answer tmot rBufLen s r := by
  have hleft' : 0 < ({ s with errno := e } : RecvSt k).left := hleft
  have hstatus : (bclSockisreadable tmot e r'.polls).map Prod.fst =
      (bclSockisreadable tmot s.errno r.polls).map Prod.fst := by
    rw [fst_bclSockisreadable_quiet tmot r'.polls e e,
      fst_bclSockisreadable_quiet tmot r.polls s.errno e, hsame.polls]
  -- The wait ends the same way, and then `recv` is the same.
  cases hpoll : bclSockisreadable tmot s.errno r.polls with
  | none =>
      have hpoll' : bclSockisreadable tmot e r'.polls = none := by
        simpa [hpoll] using hstatus
      rw [answer_waiting hleft hpoll, answer_waiting hleft' hpoll']
  | some ans =>
      rcases ans with ⟨status, e₁⟩
      rcases ans' : bclSockisreadable tmot e r'.polls with _ | ⟨status', e₂⟩
      · simp [hpoll, ans'] at hstatus
      · have hst : status' = status := by simpa [hpoll, ans'] using hstatus
        subst hst
        cases status' with
        | broken => rw [answer_over hleft (.inr hpoll), answer_over hleft' (.inr ans')]; rfl
        | timedout => rw [answer_over hleft (.inl hpoll), answer_over hleft' (.inl ans')]; rfl
        | readable =>
            cases hrecv : r.recv with
            | failed e' =>
                rw [answer_failed hleft hpoll hrecv,
                  answer_failed hleft' ans' (hsame.recv.trans hrecv)]
            | data n =>
                have hsome : s.chunk rBufLen n ≠ [] := fun hnil => hnot ⟨e₁, n, hpoll, hrecv, hnil⟩
                rw [answer_part hlen h hleft hpoll hrecv hsome,
                  answer_part hlen (h.withErrno e) hleft' ans' (hsame.recv.trans hrecv) hsome]
                rfl

/-- A `recv` of zero is answered in two ways, by what was interrupted before. -/
theorem EndKept.not_empty (hleft : 0 < s.left) (h : EndKept tmot rBufLen s r) :
    ¬ RecvEmpty tmot rBufLen s r := by
  rintro ⟨e, n, hpoll, hrecv, hnone⟩
  let r' : ReadRound := { polls := quietPolls r.polls, recv := r.recv }
  have hsame : SameAnswers r r' := ⟨by simp [r', quietPolls], rfl⟩
  have hclear : answer tmot rBufLen { s with errno := .clear } r' = some (.ret eFail) :=
    answer_empty (e := .clear) hleft (readable_quiet hpoll .clear) hrecv hnone
  have heintr : answer tmot rBufLen { s with errno := .eintr } r' = none :=
    answer_empty (e := .eintr) hleft (readable_quiet hpoll .eintr) hrecv hnone
  have hboth : (none : Option RecvEnd) = some (.ret eFail) :=
    calc
      none = answer tmot rBufLen { s with errno := .eintr } r' := heintr.symm
      _ = answer tmot rBufLen s r := h.history .eintr r' hsame
      _ = answer tmot rBufLen { s with errno := .clear } r' := (h.history .clear r' hsame).symm
      _ = some (.ret eFail) := hclear
  cases hboth

theorem atEnd_of_pos (hpos : 0 < s.readed) : s.atEnd = s.readed := by
  simp [RecvSt.atEnd, hpos]

theorem endKept_of_not_empty (hlen : len ≤ k) (h : RecvInv buf₀ len stream s) (hleft : 0 < s.left)
    (hnot : ¬ RecvEmpty tmot rBufLen s r) : EndKept tmot rBufLen s r := by
  refine ⟨?_, ?_, fun e r' hsame => answer_same hlen h hleft hnot hsame e⟩
  · rintro (⟨e, hpoll⟩ | ⟨e, hpoll⟩ | hempty) hpos
    · rw [answer_over hleft (.inl hpoll), atEnd_of_pos hpos]
    · rw [answer_over hleft (.inr hpoll), atEnd_of_pos hpos]
    · exact absurd hempty hnot
  · intro hfail
    -- A count is not negative, so the failure is an empty end or one of `recv`.
    have hover (hret : answer tmot rBufLen s r = some (.ret s.atEnd)) : s.readed = 0 := by
      by_contra hne
      have hpos : 0 < s.readed := Nat.pos_of_ne_zero hne
      rw [hret, atEnd_of_pos hpos] at hfail
      simp [eFail] at hfail
    cases hpoll : bclSockisreadable tmot s.errno r.polls with
    | none =>
        rw [answer_waiting hleft hpoll] at hfail
        cases hfail
    | some ans =>
        rcases ans with ⟨status, e⟩
        cases status with
        | broken => exact .inl (hover (answer_over hleft (.inr hpoll)))
        | timedout => exact .inl (hover (answer_over hleft (.inl hpoll)))
        | readable =>
            cases hrecv : r.recv with
            | failed e' =>
                rw [answer_failed hleft hpoll hrecv] at hfail
                by_cases he : e' = .eintr
                · simp [he] at hfail
                · exact .inr ⟨e, e', hpoll, hrecv, he⟩
            | data n =>
                have hsome : s.chunk rBufLen n ≠ [] := fun hnil => hnot ⟨e, n, hpoll, hrecv, hnil⟩
                rw [answer_part hlen h hleft hpoll hrecv hsome] at hfail
                split at hfail
                · cases hfail
                · have hval : ((s.readed + (s.chunk rBufLen n).length : Nat) : Int) = -1 := by
                    simpa [eFail] using hfail
                  omega

end Answer

/-! ## Whole runs -/

section Runs

variable {k : Nat} {buf : Buf k} {len : Nat} {tmot : Int} {rx : Reception} {s : RecvSt k}
  {pre post : List ReadRound} {r : ReadRound}

/-- After the rounds `pre`, `recv_nbytes` goes round again in the state `s`. -/
def AsksIn (buf : Buf k) (len : Nat) (tmot : Int) (rx : Reception) (pre : List ReadRound)
    (s : RecvSt k) : Prop :=
  (recvLoop tmot (bclGetrcvbuflen rx.rcvbuf)).after (recvInit buf len rx) pre = some s

theorem AsksIn.inv (h : AsksIn buf len tmot rx pre s) (hlen : len ≤ k) :
    RecvInv buf len rx.stream s ∧ 0 < s.left := by
  refine ⟨EventLoop.after_induct (I := RecvInv buf len rx.stream) ?_ (recvInit_inv buf len rx) h,
    recvLoop_exit_eq_none_iff.1 (EventLoop.exit_of_after h)⟩
  intro s r s' hs hexit hround
  have hspec := recvRound_inv tmot (bclGetrcvbuflen rx.rcvbuf) r hlen
    (recvLoop_exit_eq_none_iff.1 hexit) hs
  have hround' : recvRound tmot (bclGetrcvbuflen rx.rcvbuf) s r = .again s' := hround
  rw [hround'] at hspec
  exact hspec

/-- What a round answers is what `recv_nbytes` returns, whatever else the script holds. -/
theorem AsksIn.returns (h : AsksIn buf len tmot rx pre s) (hrounds : rx.rounds = pre ++ r :: post)
    {v : RecvEnd} (hv : answer tmot (bclGetrcvbuflen rx.rcvbuf) s r = some v) :
    (recvNbytes buf len tmot rx).2 = some v := by
  rw [recvNbytes, hrounds, EventLoop.run_after h]
  exact EventLoop.run_cons_of_some hv

/-- `recv_nbytes` keeps what it received in every round of a run exactly when no `recv` of the run
returns zero; and what a round answers is what `recv_nbytes` returns. -/
theorem endKept_iff (buf : Buf k) {len : Nat} (hlen : len ≤ k) (tmot : Int) (rx : Reception) :
    ((∀ pre r s, pre ++ [r] <+: rx.rounds → AsksIn buf len tmot rx pre s →
        EndKept tmot (bclGetrcvbuflen rx.rcvbuf) s r) ↔
      ∀ pre r s, pre ++ [r] <+: rx.rounds → AsksIn buf len tmot rx pre s →
        ¬ RecvEmpty tmot (bclGetrcvbuflen rx.rcvbuf) s r) ∧
      ∀ pre r post s v, rx.rounds = pre ++ r :: post → AsksIn buf len tmot rx pre s →
        answer tmot (bclGetrcvbuflen rx.rcvbuf) s r = some v →
        (recvNbytes buf len tmot rx).2 = some v := by
  refine ⟨⟨fun hkept pre r s hpre hasks => ?_, fun hnot pre r s hpre hasks => ?_⟩,
    fun pre r post s v hrounds hasks hv => hasks.returns hrounds hv⟩
  · rcases hasks.inv hlen with ⟨-, hleft⟩
    exact (hkept pre r s hpre hasks).not_empty hleft
  · rcases hasks.inv hlen with ⟨hinv, hleft⟩
    exact endKept_of_not_empty hlen hinv hleft (hnot pre r s hpre hasks)

/-- Two bytes come, and the next `recv` returns zero. -/
def closedLate : Reception :=
  { errno := .clear
    rcvbuf := .value 87380
    stream := ascii "9$"
    rounds :=
      [{ polls := [.event true (.value 2)], recv := .data 2 },
       { polls := [.event true (.value 1)], recv := .data 0 }] }

theorem endKept_sample :
    (∀ pre r s, pre ++ [r] <+: closedLate.rounds →
        AsksIn (Buf.zeroed 4) 4 6 closedLate pre s →
        EndKept 6 (bclGetrcvbuflen closedLate.rcvbuf) s r) ↔
      ∀ pre r s, pre ++ [r] <+: closedLate.rounds →
        AsksIn (Buf.zeroed 4) 4 6 closedLate pre s →
        ¬ RecvEmpty 6 (bclGetrcvbuflen closedLate.rcvbuf) s r :=
  (endKept_iff (Buf.zeroed 4) (by decide) 6 closedLate).1

/-- The two bytes are dropped: `E_FAIL` is returned. -/
theorem closed_late_discards :
    (recvNbytes (Buf.zeroed 4) 4 6 closedLate).2 = some (.ret eFail) ∧
      ¬ ∀ {k : Nat} (buf : Buf k) (len : Nat) (tmot : Int) (rx : Reception), len ≤ k →
        ∀ pre r s, pre ++ [r] <+: rx.rounds → AsksIn buf len tmot rx pre s →
          EndKept tmot (bclGetrcvbuflen rx.rcvbuf) s r := by
  refine ⟨by rfl, fun hall => ?_⟩
  have hasks : AsksIn (Buf.zeroed 4) 4 6 closedLate
      [{ polls := [.event true (.value 2)], recv := .data 2 }]
      { buf := ⟨ascii "9$" ++ [0, 0], rfl⟩, left := 2, readed := 2, errno := .clear, inbox := [] } :=
    rfl
  have hkept := hall (Buf.zeroed 4) 4 6 closedLate (by decide) _
    { polls := [.event true (.value 1)], recv := .data 0 } _ (by decide) hasks
  exact hkept.not_empty (by decide) ⟨.clear, 0, rfl, rfl, rfl⟩

end Runs

end Exchange
end CommServer
