import CommServer.LibSrc.Socket

/-!
# SocketSpec — loop invariants of `libsrc/socket.c`

* `SendInv`  : what `send_nbytes` has put on the wire is a prefix of its buffer;
* `RecvInv`  : what `recv_nbytes` has stored is a prefix of the peer's stream, in front of the old
  contents of the buffer;
* `RecvnInv` : the same for `recvn`, at an offset into the array.

Each is kept by every round (`sendRound_inv`, `recvRound_inv`, `recvnRound_inv`) and so holds after
every run (`sendNbytes_spec`, `recvNbytes_spec`, `recvn_spec`).
-/

namespace CommServer

open CLib Transition

/-! ## Sending -/

theorem sendLoop_exit_eq_none_iff {buf : List Byte} {s : SendSt} :
    (sendLoop buf).exit s = none ↔ 0 < s.left := by
  simp [sendLoop]

theorem sendLoop_exit_eq_some_iff {buf : List Byte} {s : SendSt} {v : Int} :
    (sendLoop buf).exit s = some v ↔ ¬ 0 < s.left ∧ s.sended = v := by
  simp [sendLoop]

structure SendInv (buf : List Byte) (len : Nat) (s : SendSt) : Prop where
  count : s.sended + s.left = len
  wire : s.wire = buf.take s.sended

theorem sendInit_inv (buf : List Byte) (len : Nat) : SendInv buf len (sendInit len) := by
  constructor
  · simp [sendInit]
  · simp [sendInit]

/-! The ways a round can end. -/

/-- A round that goes on has sent the next bytes, or none when it was interrupted. -/
theorem sendRound_again {buf : List Byte} {s s' : SendSt} {r : SendResult}
    (hround : sendRound buf s r = .again s') :
    s' = { left := s.left - (sendBytes buf s r).length
           sended := s.sended + (sendBytes buf s r).length
           wire := s.wire ++ sendBytes buf s r } := by
  cases r with
  | failed e =>
      by_cases he : e = .eintr
      · have hs : s = s' := by simpa [sendRound, he] using hround
        simp [sendBytes, hs]
      · simp [sendRound, he] at hround
  | accepted n =>
      simp only [sendRound, Round.again.injEq] at hround
      exact hround.symm

/-- A round that returns has failed, and puts nothing on the wire. -/
theorem sendRound_failed {buf : List Byte} {s s' : SendSt} {r : SendResult} {v : Int}
    (hround : sendRound buf s r = .done s' v) : s' = s ∧ v = -1 := by
  cases r with
  | failed e =>
      by_cases he : e = .eintr
      · simp [sendRound, he] at hround
      · have hdone : s = s' ∧ -1 = v := by simpa [sendRound, he] using hround
        exact ⟨hdone.1.symm, hdone.2.symm⟩
  | accepted n => simp [sendRound] at hround

/-- `send_nbytes` waits for nothing but `send`. -/
theorem sendRound_ne_waiting {buf : List Byte} (s s' : SendSt) (r : SendResult) :
    sendRound buf s r ≠ .waiting s' := by
  cases r with
  | failed e => by_cases he : e = .eintr <;> simp [sendRound, he]
  | accepted n => simp [sendRound]

/-- What goes out are the next bytes of the buffer. -/
theorem sendBytes_eq (buf : List Byte) (s : SendSt) (r : SendResult) :
    ∃ m, m ≤ s.left ∧ sendBytes buf s r = (buf.drop s.sended).take m := by
  cases r with
  | failed e => exact ⟨0, Nat.zero_le _, rfl⟩
  | accepted n => exact ⟨min n s.left, Nat.min_le_right _ _, rfl⟩

theorem sendRound_inv {buf : List Byte} {len : Nat} {s s' : SendSt} {r : SendResult}
    (hlen : len ≤ buf.length) (h : SendInv buf len s) (hround : sendRound buf s r = .again s') :
    SendInv buf len s' := by
  have hcount := h.count
  rcases sendBytes_eq buf s r with ⟨m, hm, hbytes⟩
  have hsize : (sendBytes buf s r).length = m := by
    rw [hbytes]
    simp only [List.length_take, List.length_drop]
    omega
  rw [sendRound_again hround]
  constructor
  · dsimp only
    omega
  · -- What goes out continues the prefix.
    calc
      s.wire ++ sendBytes buf s r = buf.take s.sended ++ (buf.drop s.sended).take m := by
        rw [h.wire, hbytes]
      _ = buf.take (s.sended + m) := List.take_add.symm
      _ = buf.take (s.sended + (sendBytes buf s r).length) := by rw [hsize]

theorem sendRound_wire {buf : List Byte} {s s' : SendSt} {r : SendResult}
    (hround : sendRound buf s r = .again s') : s'.wire = s.wire ++ sendBytes buf s r := by
  rw [sendRound_again hround]

/-- What is on the wire is a prefix of the text that was to be sent. -/
theorem SendInv.wire_prefix {buf text : List Byte} {s : SendSt} (h : SendInv buf text.length s)
    (hpre : text <+: buf) : s.wire <+: text := by
  have hcount := h.count
  rw [h.wire]
  refine List.prefix_of_prefix_length_le (List.take_prefix _ _) hpre ?_
  simp only [List.length_take]
  omega

/-- What `send_nbytes` reports is what went out: all of `buf[0..len)` or a failure. -/
theorem sendNbytes_spec {buf : List Byte} {len : Nat} (hlen : len ≤ buf.length)
    (script : List SendResult) :
    SendInv buf len (sendNbytes buf len script).1 ∧
      ∀ v, (sendNbytes buf len script).2 = some v →
        (v = len ∧ (sendNbytes buf len script).1.sended = len) ∨ v = -1 := by
  refine EventLoop.run_induct (I := SendInv buf len)
    (Q := fun s (v : Int) => (v = len ∧ s.sended = len) ∨ v = -1) ?_ ?_ ?_ ?_ _ _ (sendInit_inv buf len)
  · -- The loop is left with nothing more to send.
    intro s v h hexit
    have hcount := h.count
    rcases sendLoop_exit_eq_some_iff.1 hexit with ⟨hleft, hv⟩
    left
    omega
  · -- A round that goes on.
    intro s r s' h _ hround
    exact sendRound_inv hlen h hround
  · intro s r s' v h _ hround
    rcases sendRound_failed hround with ⟨rfl, hv⟩
    exact ⟨h, Or.inr hv⟩
  · intro s r s' _ _ hround
    exact absurd hround (sendRound_ne_waiting s s' r)

/-- A connection that accepts everything at once. -/
theorem sendNbytes_atOnce {buf : List Byte} {len : Nat} (hpos : 0 < len) (hlen : len ≤ buf.length) :
    sendNbytes buf len [.accepted len] =
      (({ left := 0, sended := len, wire := buf.take len } : SendSt), some (len : Int)) := by
  have hround : sendRound buf (sendInit len) (.accepted len) =
      .again { left := 0, sended := len, wire := buf.take len } := by
    simp [sendRound, sendChunk, sendInit, hlen]
  have hfirst : (sendLoop buf).exit (sendInit len) = none := sendLoop_exit_eq_none_iff.2 hpos
  calc
    sendNbytes buf len [.accepted len]
        = (sendLoop buf).run { left := 0, sended := len, wire := buf.take len } [] :=
          EventLoop.run_again hfirst hround
    _ = ({ left := 0, sended := len, wire := buf.take len }, some (len : Int)) := rfl

/-! ## Receiving -/

/-- `bcl_getrcvbuflen` never answers zero or less. -/
theorem bclGetrcvbuflen_pos (r : SockoptResult) : 0 < bclGetrcvbuflen r := by
  cases r with
  | value v =>
      by_cases hv : v ≤ 0
      · simp only [bclGetrcvbuflen, hv, if_true]
        decide
      · simp only [bclGetrcvbuflen, hv, if_false]
        omega
  | failed e => by_cases he : e = .enotsock <;> simp only [bclGetrcvbuflen, he] <;> decide

structure RecvInv {k : Nat} (buf₀ : Buf k) (len : Nat) (stream : List Byte) (s : RecvSt k) :
    Prop where
  count : s.readed + s.left = len
  bound : s.readed ≤ stream.length
  stored : buf₀.blit 0 (stream.take s.readed) = some s.buf
  inbox : s.inbox = stream.drop s.readed

section Recv

variable {k : Nat} {buf₀ : Buf k} {len : Nat} {stream : List Byte} {s s' : RecvSt k}
  {tmot rBufLen : Int} {r : ReadRound} {e : Errno}

theorem recvInit_inv (buf₀ : Buf k) (len : Nat) (rx : Reception) :
    RecvInv buf₀ len rx.stream (recvInit buf₀ len rx) := by
  constructor <;> simp [recvInit]

/-- What the buffer holds: the stream so far, in front of its old contents. -/
theorem RecvInv.bytes (h : RecvInv buf₀ len stream s) :
    s.buf.bytes = stream.take s.readed ++ buf₀.bytes.drop s.readed := by
  have hbytes := ((Buf.blit_eq_some_iff _ _ _ _).1 h.stored).2
  have hlen : (stream.take s.readed).length = s.readed := by simp [h.bound]
  simpa [hlen] using hbytes

theorem RecvInv.withErrno (h : RecvInv buf₀ len stream s) (e : Errno) :
    RecvInv buf₀ len stream { s with errno := e } :=
  ⟨h.count, h.bound, h.stored, h.inbox⟩

theorem recvRound_readable (rBufLen : Int)
    (hpoll : bclSockisreadable tmot s.errno r.polls = some (.readable, e)) :
    recvRound tmot rBufLen s r = recvReadable rBufLen s e r.recv := by
  simp [recvRound, hpoll]

theorem recvRound_over
    (hpoll : bclSockisreadable tmot s.errno r.polls = some (.timedout, e) ∨
      bclSockisreadable tmot s.errno r.polls = some (.broken, e)) :
    recvRound tmot rBufLen s r = .done { s with errno := e } (.ret s.atEnd) := by
  rcases hpoll with hpoll | hpoll <;> simp [recvRound, hpoll]

theorem recvRound_waiting (hpoll : bclSockisreadable tmot s.errno r.polls = none) :
    recvRound tmot rBufLen s r = .waiting s := by
  simp [recvRound, hpoll]

/-- The bytes of one `recv` are a part of what is missing, and are stored behind the others. -/
theorem RecvInv.store (h : RecvInv buf₀ len stream s) (rBufLen : Int) (hlen : len ≤ k) (n : Nat)
    (e : Errno) :
    ∃ buf, s.buf.blit s.readed (s.chunk rBufLen n) = some buf ∧
      RecvInv buf₀ len stream
        { buf := buf
          left := s.left - (s.chunk rBufLen n).length
          readed := s.readed + (s.chunk rBufLen n).length
          errno := e
          inbox := s.inbox.drop (s.chunk rBufLen n).length } := by
  have hcount := h.count
  have hbound := h.bound
  have hsize : (s.chunk rBufLen n).length ≤ s.left ∧
      s.readed + (s.chunk rBufLen n).length ≤ stream.length := by
    rw [RecvSt.chunk, h.inbox]
    simp only [List.length_take, List.length_drop]
    omega
  have hchunk : s.chunk rBufLen n <+: stream.drop s.readed := by
    rw [RecvSt.chunk, h.inbox]
    exact List.take_prefix _ _
  rcases Buf.blit_next h.stored hbound hchunk (by omega) with ⟨buf, hblit, hstored⟩
  rw [Nat.zero_add] at hblit
  refine ⟨buf, hblit, ?_, hsize.2, hstored, ?_⟩
  · dsimp only
    omega
  · dsimp only
    rw [h.inbox, List.drop_drop]

/-! The answers of `recv`, case by case. -/

theorem recvReadable_failed {e' : Errno} (he : e' ≠ .eintr) :
    recvReadable rBufLen s e (.failed e') = .done { s with errno := e' } (.ret eFail) := by
  simp [recvReadable, he]

theorem recvReadable_eintr :
    recvReadable rBufLen s e (.failed .eintr) = .again { s with errno := .eintr } := by
  simp [recvReadable]

theorem recvReadable_ended {n : Nat} (hnone : (s.chunk rBufLen n).length = 0) (he : e ≠ .eintr) :
    recvReadable rBufLen s e (.data n) = .done { s with errno := e } (.ret eFail) := by
  simp only [recvReadable, hnone, he, if_true, if_false]

theorem recvReadable_stale {n : Nat} (hnone : (s.chunk rBufLen n).length = 0) :
    recvReadable rBufLen s .eintr (.data n) = .again { s with errno := .eintr } := by
  simp only [recvReadable, hnone, if_true]

theorem RecvInv.more (h : RecvInv buf₀ len stream s) (rBufLen : Int) (hlen : len ≤ k) {n : Nat}
    (hsome : (s.chunk rBufLen n).length ≠ 0) (e : Errno) :
    ∃ s', recvReadable rBufLen s e (.data n) = .again s' ∧ RecvInv buf₀ len stream s' ∧
      s'.errno = e ∧ s'.readed = s.readed + (s.chunk rBufLen n).length := by
  rcases h.store rBufLen hlen n e with ⟨buf, hblit, hinv⟩
  refine ⟨_, ?_, hinv, rfl, rfl⟩
  simp only [recvReadable, hsome, if_false, hblit]

/-- What one round does to the invariant: it never stores outside the buffer, and a value that it
returns is the count or a failure. -/
theorem recvRound_inv (tmot rBufLen : Int) (r : ReadRound) (hlen : len ≤ k) (hleft : 0 < s.left)
    (h : RecvInv buf₀ len stream s) :
    match recvRound tmot rBufLen s r with
    | .again s' => RecvInv buf₀ len stream s'
    | .waiting s' => RecvInv buf₀ len stream s'
    | .done s' v =>
        RecvInv buf₀ len stream s' ∧ (v = .ret eFail ∧ 0 < s'.left ∨ v = .ret s'.readed) := by
  cases hpoll : bclSockisreadable tmot s.errno r.polls with
  | none =>
      rw [recvRound_waiting hpoll]
      exact h
  | some ans =>
      rcases ans with ⟨status, e⟩
      -- Both ends of the wait return the count, or a failure when it is zero; then there is room.
      have hend : RecvInv buf₀ len stream { s with errno := e } ∧
          (RecvEnd.ret s.atEnd = .ret eFail ∧ 0 < s.left ∨ RecvEnd.ret s.atEnd = .ret s.readed) := by
        refine ⟨h.withErrno e, ?_⟩
        by_cases hpos : s.readed > 0
        · right
          simp [RecvSt.atEnd, hpos]
        · left
          simp [RecvSt.atEnd, hpos, hleft]
      cases status with
      | broken =>
          rw [recvRound_over (Or.inr hpoll)]
          exact hend
      | timedout =>
          rw [recvRound_over (Or.inl hpoll)]
          exact hend
      | readable =>
          rw [recvRound_readable _ hpoll]
          cases r.recv with
          | failed e' =>
              by_cases he : e' = .eintr
              · rw [he, recvReadable_eintr]
                exact h.withErrno _
              · rw [recvReadable_failed he]
                exact ⟨h.withErrno _, Or.inl ⟨rfl, hleft⟩⟩
          | data n =>
              -- No bytes are the end of the stream, or an interruption if an old `errno` says so.
              by_cases hzero : (s.chunk rBufLen n).length = 0
              · by_cases he : e = .eintr
                · rw [he, recvReadable_stale hzero]
                  exact h.withErrno _
                · rw [recvReadable_ended hzero he]
                  exact ⟨h.withErrno _, Or.inl ⟨rfl, hleft⟩⟩
              · rcases h.more _ hlen hzero e with ⟨s', hmore, hinv, -, -⟩
                rw [hmore]
                exact hinv

theorem recvLoop_exit_eq_none_iff {tmot rBufLen : Int} {s : RecvSt k} :
    (recvLoop tmot rBufLen).exit s = none ↔ 0 < s.left := by
  simp [recvLoop]

theorem recvLoop_exit_eq_some_iff {tmot rBufLen : Int} {s : RecvSt k} {v : RecvEnd} :
    (recvLoop tmot rBufLen).exit s = some v ↔ ¬ 0 < s.left ∧ .ret s.readed = v := by
  simp [recvLoop]

/-- `recv_nbytes` at any point of any reception: it fails only with room left in the buffer. -/
theorem recvNbytes_spec (buf₀ : Buf k) (hlen : len ≤ k) (tmot : Int) (rx : Reception) :
    RecvInv buf₀ len rx.stream (recvNbytes buf₀ len tmot rx).1 ∧
      ∀ v, (recvNbytes buf₀ len tmot rx).2 = some v →
        v = .ret eFail ∧ 0 < (recvNbytes buf₀ len tmot rx).1.left ∨
          v = .ret (recvNbytes buf₀ len tmot rx).1.readed := by
  have hround : ∀ (s : RecvSt k) (r : ReadRound), RecvInv buf₀ len rx.stream s →
      (recvLoop tmot (bclGetrcvbuflen rx.rcvbuf)).exit s = none → _ := fun s r h hexit => by
    exact recvRound_inv tmot (bclGetrcvbuflen rx.rcvbuf) r hlen
      (recvLoop_exit_eq_none_iff.1 hexit) h
  refine EventLoop.run_induct (I := RecvInv buf₀ len rx.stream)
    (Q := fun (s : RecvSt k) (v : RecvEnd) => v = .ret eFail ∧ 0 < s.left ∨ v = .ret s.readed)
    ?_ ?_ ?_ ?_ _ _ (recvInit_inv buf₀ len rx)
  · intro s v _ hexit
    exact Or.inr (recvLoop_exit_eq_some_iff.1 hexit).2.symm
  · intro s r s' h hexit heq
    have hspec := hround s r h hexit
    rw [show recvRound tmot (bclGetrcvbuflen rx.rcvbuf) s r = .again s' from heq] at hspec
    exact hspec
  · intro s r s' v h hexit heq
    have hspec := hround s r h hexit
    rw [show recvRound tmot (bclGetrcvbuflen rx.rcvbuf) s r = .done s' v from heq] at hspec
    exact hspec
  · intro s r s' h hexit heq
    have hspec := hround s r h hexit
    rw [show recvRound tmot (bclGetrcvbuflen rx.rcvbuf) s r = .waiting s' from heq] at hspec
    exact hspec

end Recv

/-! ## `recvn` -/

section Recvn

variable {k : Nat} {buf₀ : Buf k} {off : Nat} {n : UInt64} {stream : List Byte}

/-- `got` bytes of the stream are stored at `off`. -/
structure RecvnInv (buf₀ : Buf k) (off : Nat) (n : UInt64) (stream : List Byte) (got : Nat)
    (s : RecvnSt k) : Prop where
  ptr : s.ptr = off + got
  nleft : s.nleft = (n.toNat : Int) - got
  bound : got ≤ n.toNat ∧ got ≤ stream.length
  stored : buf₀.blit off (stream.take got) = some s.buf
  inbox : s.inbox = stream.drop got

/-- A size below 2^63 is what `nleft` starts with. -/
theorem toInt64_toInt_eq (hn : n.toNat < 2 ^ 63) : n.toInt64.toInt = n.toNat := by
  have hcond := BitVec.toInt_eq_toNat_cond n.toBitVec
  have hnat : n.toBitVec.toNat = n.toNat := rfl
  have hint : n.toInt64.toInt = n.toBitVec.toInt := rfl
  rw [hint, hcond, hnat]
  split <;> omega

/-- What is stored is within the array. -/
theorem RecvnInv.inside {got : Nat} {s : RecvnSt k} (h : RecvnInv buf₀ off n stream got s) :
    off + got ≤ k := by
  have hfit := ((Buf.blit_eq_some_iff _ _ _ _).1 h.stored).1
  rwa [List.length_take_of_le h.bound.2] at hfit

/-- The `int` that `recvn` returns is the count, whatever the size asked for: the array is not that
long. -/
theorem RecvnInv.ret {got : Nat} {s : RecvnSt k} (h : RecvnInv buf₀ off n stream got s)
    (hk : k < 2 ^ 31) : recvnRet n s.nleft = got := by
  have hinside := h.inside
  have hsub : (n.toNat : Int) - ((n.toNat : Int) - got) = got := by omega
  rw [recvnRet, h.nleft, hsub]
  exact Int.bmod_eq_of_le (by omega) (by omega)

/-- The bytes that one `recv(fd, ptr, nleft, 0)` returns. -/
def RecvnSt.chunk (s : RecvnSt k) (m : Nat) : List Byte :=
  s.inbox.take (min m s.nleft.toNat)

theorem RecvnInv.length_chunk {got : Nat} {s : RecvnSt k}
    (h : RecvnInv buf₀ off n stream got s) (m : Nat) :
    (s.chunk m).length = min m (min (n.toNat - got) (stream.length - got)) := by
  have hnleft := h.nleft
  rw [RecvnSt.chunk, h.inbox]
  simp only [List.length_take, List.length_drop]
  omega

/-- What a `recv` returns is a part of what is missing. -/
theorem RecvnInv.chunk_le {got : Nat} {s : RecvnSt k} (h : RecvnInv buf₀ off n stream got s)
    (m : Nat) :
    got + (s.chunk m).length ≤ n.toNat ∧ got + (s.chunk m).length ≤ stream.length := by
  have hbound := h.bound
  rw [h.length_chunk]
  omega

/-! The answers of `recv`, case by case. -/

theorem recvnRound_failed {s : RecvnSt k} {e : Errno} (he : e ≠ .eintr) :
    recvnRound n s (.failed e) = .done s (.ret (-1)) := by
  simp [recvnRound, he]

theorem recvnRound_eintr {s : RecvnSt k} : recvnRound n s (.failed .eintr) = .again s := by
  simp [recvnRound]

theorem recvnRound_ended {s : RecvnSt k} {m : Nat} (hnone : (s.chunk m).length = 0) :
    recvnRound n s (.data m) = .done s (.ret (recvnRet n s.nleft)) := by
  unfold RecvnSt.chunk at hnone
  simp only [recvnRound, hnone, if_true]

/-- A part that does not fit leads outside the array. -/
theorem RecvnInv.over {got : Nat} {s : RecvnSt k} (h : RecvnInv buf₀ off n stream got s) {m : Nat}
    (hsome : (s.chunk m).length ≠ 0) (hroom : ¬ off + got + (s.chunk m).length ≤ k) :
    recvnRound n s (.data m) = .done s .fault := by
  have hover : s.buf.blit s.ptr (s.chunk m) = none := by
    rw [← h.ptr] at hroom
    simp only [Buf.blit, hroom, dite_false]
  unfold RecvnSt.chunk at hsome hover
  simp only [recvnRound, hsome, if_false, hover]

/-- A part that fits is stored behind the others. -/
theorem RecvnInv.more {got : Nat} {s : RecvnSt k} (h : RecvnInv buf₀ off n stream got s) {m : Nat}
    (hsome : (s.chunk m).length ≠ 0) (hroom : off + got + (s.chunk m).length ≤ k) :
    ∃ s', recvnRound n s (.data m) = .again s' ∧
      RecvnInv buf₀ off n stream (got + (s.chunk m).length) s' := by
  have hnleft := h.nleft
  have hbound := h.bound
  have hptr := h.ptr
  have hchunk : s.chunk m <+: stream.drop got := by
    rw [RecvnSt.chunk, h.inbox]
    exact List.take_prefix _ _
  rcases Buf.blit_next h.stored hbound.2 hchunk hroom with ⟨buf, hblit, hstored⟩
  rw [← hptr] at hblit
  refine ⟨{ buf := buf
            nleft := s.nleft - (s.chunk m).length
            ptr := s.ptr + (s.chunk m).length
            inbox := s.inbox.drop (s.chunk m).length }, ?_, ?_, ?_, h.chunk_le m, hstored, ?_⟩
  · unfold RecvnSt.chunk at hsome hblit ⊢
    simp only [recvnRound, hsome, if_false, hblit]
  · dsimp only
    omega
  · dsimp only
    omega
  · dsimp only
    rw [h.inbox, List.drop_drop]

/-- What one round does to the invariant.  It stores outside the array only when more is asked for
than the array has room for, and as much has come. -/
theorem recvnRound_inv {got : Nat} {s : RecvnSt k} (r : RecvResult) (hk : k < 2 ^ 31)
    (h : RecvnInv buf₀ off n stream got s) :
    match recvnRound n s r with
    | .again s' => ∃ got', RecvnInv buf₀ off n stream got' s'
    | .waiting s' => RecvnInv buf₀ off n stream got s'
    | .done s' v => RecvnInv buf₀ off n stream got s' ∧
        (v = .ret (-1) ∨ v = .ret got ∨ v = .fault ∧ k < off + min n.toNat stream.length) := by
  cases r with
  | failed e =>
      by_cases he : e = .eintr
      · rw [he, recvnRound_eintr]
        exact ⟨got, h⟩
      · rw [recvnRound_failed he]
        exact ⟨h, Or.inl rfl⟩
  | data m =>
      by_cases hzero : (s.chunk m).length = 0
      · rw [recvnRound_ended hzero, h.ret hk]
        exact ⟨h, Or.inr (Or.inl rfl)⟩
      · by_cases hroom : off + got + (s.chunk m).length ≤ k
        · rcases h.more hzero hroom with ⟨s', hagain, hinv⟩
          rw [hagain]
          exact ⟨_, hinv⟩
        · rw [h.over hzero hroom]
          refine ⟨h, Or.inr (Or.inr ⟨rfl, ?_⟩)⟩
          have hle := h.chunk_le m
          omega

theorem recvnLoop_exit_full {s : RecvnSt k} (hk : k < 2 ^ 31)
    (h : RecvnInv buf₀ off n stream n.toNat s) : (recvnLoop n).exit s = some (.ret n.toNat) := by
  have hnleft := h.nleft
  have hdone : ¬ s.nleft > 0 := by omega
  simp only [recvnLoop, hdone, if_false, h.ret hk]

theorem recvnLoop_exit_missing {got : Nat} {s : RecvnSt k} (hmissing : got < n.toNat)
    (h : RecvnInv buf₀ off n stream got s) : (recvnLoop n).exit s = none := by
  have hnleft := h.nleft
  have hpos : s.nleft > 0 := by omega
  simp only [recvnLoop, hpos, if_true]

theorem recvnInv_init (buf₀ : Buf k) (off : Nat) (n : UInt64) (hoff : off ≤ k)
    (hn : n.toNat < 2 ^ 63) (stream : List Byte) :
    RecvnInv buf₀ off n stream 0
      { buf := buf₀, nleft := n.toInt64.toInt, ptr := off, inbox := stream } := by
  refine ⟨rfl, ?_, ⟨Nat.zero_le _, Nat.zero_le _⟩, ?_, rfl⟩
  · simp [toInt64_toInt_eq hn]
  · refine (Buf.blit_eq_some_iff _ _ _ _).2 ⟨?_, ?_⟩
    · simp only [List.take_zero, List.length_nil]
      omega
    · simp

/-- `recvn` at any point of any script, whether there is room for the size asked for or not. -/
theorem recvn_outcome (buf₀ : Buf k) (off : Nat) (n : UInt64) (hk : k < 2 ^ 31) (hoff : off ≤ k)
    (hn : n.toNat < 2 ^ 63) (stream : List Byte) (script : List RecvResult) :
    ∃ got, RecvnInv buf₀ off n stream got (recvn buf₀ off n stream script).1 ∧
      ∀ v, (recvn buf₀ off n stream script).2 = some v →
        v = .ret (-1) ∨ v = .ret got ∨ v = .fault ∧ k < off + min n.toNat stream.length := by
  have hround : ∀ (s : RecvnSt k) (r : RecvResult), (∃ got, RecvnInv buf₀ off n stream got s) →
      ∃ got, RecvnInv buf₀ off n stream got s ∧ _ := fun s r h =>
    h.imp fun got hinv => ⟨hinv, recvnRound_inv r hk hinv⟩
  have hrun := EventLoop.run_induct (L := recvnLoop (k := k) n)
    (I := fun s => ∃ got, RecvnInv buf₀ off n stream got s)
    (Q := fun s v => ∀ got, RecvnInv buf₀ off n stream got s →
      v = .ret (-1) ∨ v = .ret got ∨ v = .fault ∧ k < off + min n.toNat stream.length)
    ?_ ?_ ?_ ?_ _ script ⟨0, recvnInv_init buf₀ off n hoff hn stream⟩
  · rcases hrun with ⟨⟨got, hinv⟩, hret⟩
    exact ⟨got, hinv, fun v hv => hret v hv got hinv⟩
  · -- `nleft` is zero: the size asked for is returned.
    intro s v _ hexit got hinv
    by_cases hleft : s.nleft > 0
    · simp [recvnLoop, hleft] at hexit
    · have hv : RecvEnd.ret (recvnRet n s.nleft) = v := by
        simpa [recvnLoop, hleft] using hexit
      right
      left
      rw [← hv, hinv.ret hk]
  · intro s r s' h _ heq
    rcases hround s r h with ⟨got, -, hspec⟩
    rw [show recvnRound n s r = .again s' from heq] at hspec
    exact hspec
  · intro s r s' v h _ heq
    rcases hround s r h with ⟨got, -, hspec⟩
    rw [show recvnRound n s r = .done s' v from heq] at hspec
    refine ⟨⟨got, hspec.1⟩, fun got' hinv => ?_⟩
    -- The cursor tells how much was stored.
    have hsame : got' = got := by
      have hptr := hspec.1.ptr
      have hptr' := hinv.ptr
      omega
    rw [hsame]
    exact hspec.2
  · intro s r s' h _ heq
    rcases hround s r h with ⟨got, -, hspec⟩
    rw [show recvnRound n s r = .waiting s' from heq] at hspec
    exact ⟨got, hspec⟩

/-- `recvn` at any point of any script, into an array that has room for the size asked for. -/
theorem recvn_spec (buf₀ : Buf k) (off : Nat) (n : UInt64) (hk : k < 2 ^ 31)
    (hfit : off + n.toNat ≤ k) (stream : List Byte) (script : List RecvResult) :
    ∃ got, RecvnInv buf₀ off n stream got (recvn buf₀ off n stream script).1 ∧
      ∀ v, (recvn buf₀ off n stream script).2 = some v → v = .ret (-1) ∨ v = .ret got := by
  obtain ⟨got, hinv, hret⟩ := recvn_outcome buf₀ off n hk (by omega) (by omega) stream script
  refine ⟨got, hinv, fun v hv => ?_⟩
  rcases hret v hv with hfail | hread | ⟨-, hover⟩
  · exact Or.inl hfail
  · exact Or.inr hread
  · omega

/-- A peer that has sent enough can be read in one `recv`. -/
theorem recvn_atOnce (buf₀ : Buf k) (off : Nat) (n : UInt64) (hk : k < 2 ^ 31)
    (hfit : off + n.toNat ≤ k) (hpos : 0 < n.toNat) {stream : List Byte}
    (hstream : n.toNat ≤ stream.length) :
    (recvn buf₀ off n stream [.data n.toNat]).2 = some (.ret n.toNat) := by
  have hinit := recvnInv_init buf₀ off n (by omega) (by omega) stream
  have hchunk := hinit.length_chunk n.toNat
  rw [Nat.sub_zero, Nat.sub_zero, Nat.min_eq_left hstream, Nat.min_self] at hchunk
  obtain ⟨s, hround, hinv⟩ := hinit.more (m := n.toNat) (by omega) (by omega)
  rw [hchunk, Nat.zero_add] at hinv
  have hagain : (recvnLoop n).round _ (.data n.toNat) = .again s := hround
  rw [recvn, EventLoop.run_again (recvnLoop_exit_missing hpos hinit) hagain,
    EventLoop.run_of_exit (recvnLoop_exit_full hk hinv)]

/-- More than there is room for, in one `recv`. -/
theorem recvn_over (buf₀ : Buf k) (off : Nat) (n : UInt64) (hoff : off ≤ k)
    (hn : n.toNat < 2 ^ 63) {m : Nat} (hm : m ≤ n.toNat) (hover : k < off + m)
    {stream : List Byte} (hstream : m ≤ stream.length) :
    (recvn buf₀ off n stream [.data m]).2 = some .fault := by
  have hinit := recvnInv_init buf₀ off n hoff hn stream
  have hchunk := hinit.length_chunk m
  have hround := hinit.over (m := m) (by omega) (by omega)
  have hdone : (recvnLoop n).round _ (.data m) = .done _ .fault := hround
  rw [recvn, EventLoop.run_done (recvnLoop_exit_missing (by omega) hinit) hdone]

/-- A connection that fails before anything has come. -/
theorem recvn_failed (buf₀ : Buf k) (off : Nat) (n : UInt64) (hoff : off ≤ k)
    (hn : n.toNat < 2 ^ 63) (hpos : 0 < n.toNat) (stream : List Byte) {e : Errno} (he : e ≠ .eintr) :
    (recvn buf₀ off n stream [.failed e]).2 = some (.ret (-1)) := by
  have hinit := recvnInv_init buf₀ off n hoff hn stream
  have hdone : ∀ s : RecvnSt k, (recvnLoop n).round s (.failed e) = .done s (.ret (-1)) := by
    intro s
    exact recvnRound_failed (n := n) he
  rw [recvn, EventLoop.run_done (recvnLoop_exit_missing hpos hinit) (hdone _)]

end Recvn

end CommServer
