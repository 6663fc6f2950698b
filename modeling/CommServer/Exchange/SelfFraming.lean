import CommServer.Src.LegacySpec

/-!
# SelfFraming — the frames of the length-prefixed protocol tell their own length

* `Framed.selfFramed`   : `sendlen`, the text of `send_msg` and the number in its header agree;
* `Conn.readFrame_frame` : a reader of header and body takes one frame off a connection, however the
  bytes come, and leaves what follows;
* `frames_consistent`   : both, for any sequence of such frames.
-/

namespace CommServer
namespace Exchange

open CLib Transition

/-! ## Scripts that feed a reader -/

/-- A `recv` that returns bytes, as long as there are any. -/
def brings : RecvResult → Bool
  | .data m => 0 < m
  | .failed _ => false

/-- An answer of `recv` on a connection that stays open: bytes, or an interruption. -/
def Live (r : RecvResult) : Prop :=
  brings r = true ∨ r = .failed .eintr

section Fed

variable {k : Nat} {buf₀ : Buf k} {off got : Nat} {n : UInt64} {stream : List Byte} {s : RecvnSt k}

/-- A script with enough answers that bring something fills the array, and as many are left over as
were there beyond the missing bytes. -/
theorem recvnLoop_fed (hk : k < 2 ^ 31) (hfit : off + n.toNat ≤ k)
    (hstream : n.toNat ≤ stream.length) {script : List RecvResult}
    (hlive : ∀ r ∈ script, Live r) (henough : n.toNat ≤ got + script.countP brings)
    (h : RecvnInv buf₀ off n stream got s) :
    ((recvnLoop n).run s script).2 = some (.ret n.toNat) ∧
      RecvnInv buf₀ off n stream n.toNat ((recvnLoop n).run s script).1 ∧
      got + script.countP brings ≤ ((recvnLoop n).rest s script).countP brings + n.toNat := by
  have hbound := h.bound
  -- On the script; each answer that brings something lowers what is missing.
  induction script generalizing s got with
  | nil =>
      have hgot : got = n.toNat := by
        simp only [List.countP_nil] at henough
        omega
      subst hgot
      have hexit := recvnLoop_exit_full hk h
      rw [EventLoop.run_of_exit hexit, EventLoop.rest_of_exit hexit]
      exact ⟨rfl, h, by omega⟩
  | cons r script ih =>
      by_cases hgot : got = n.toNat
      · subst hgot
        have hexit := recvnLoop_exit_full hk h
        rw [EventLoop.run_of_exit hexit, EventLoop.rest_of_exit hexit]
        exact ⟨rfl, h, by omega⟩
      · have hexit := recvnLoop_exit_missing (by omega) h
        have hlive' : ∀ r ∈ script, Live r := fun r hr => hlive r (List.mem_cons_of_mem _ hr)
        rcases hlive r List.mem_cons_self with hbrings | rfl
        · cases r with
          | failed e => simp [brings] at hbrings
          | data m =>
              have hm : 0 < m := by simpa [brings] using hbrings
              have hchunk := h.length_chunk m
              rcases h.more (m := m) (by omega) (by omega) with ⟨s', hmore, hinv⟩
              have hround : (recvnLoop n).round s (.data m) = .again s' := hmore
              rw [List.countP_cons_of_pos hbrings] at henough ⊢
              rw [EventLoop.run_again hexit hround, EventLoop.rest_again hexit hround]
              rcases ih hlive' (by omega) hinv hinv.bound with ⟨hret, hfull, hrest⟩
              exact ⟨hret, hfull, by omega⟩
        · -- An interruption changes nothing.
          have hnone : ¬ brings (.failed .eintr) = true := by simp [brings]
          have hround : (recvnLoop n).round s (.failed .eintr) = .again s := recvnRound_eintr (n := n)
          rw [List.countP_cons_of_neg hnone] at henough ⊢
          rw [EventLoop.run_again hexit hround, EventLoop.rest_again hexit hround]
          exact ih hlive' henough h hbound

end Fed

/-- On an endless script in which something comes again and again, any number of answers brings
something. -/
theorem exists_countP_brings {ω : Nat → RecvResult} (h : ∀ i, ∃ j, i ≤ j ∧ brings (ω j) = true)
    (total : Nat) : ∃ N, total ≤ (EventLoop.answers ω N).countP brings := by
  induction total with
  | zero => exact ⟨0, Nat.zero_le _⟩
  | succ total ih =>
      rcases ih with ⟨N, hN⟩
      rcases h N with ⟨j, hj, hbrings⟩
      obtain ⟨d, rfl⟩ : ∃ d, j = N + d := ⟨j - N, by omega⟩
      -- Up to the next such answer, and with it.
      have hnext : (EventLoop.answers ω (N + d + 1)).countP brings =
          (EventLoop.answers ω (N + d)).countP brings + 1 := by
        simp [EventLoop.answers, List.range_succ, hbrings]
      have hbefore : (EventLoop.answers ω N).countP brings ≤
          (EventLoop.answers ω (N + d)).countP brings := by
        rw [EventLoop.answers, EventLoop.answers, List.range_add, List.map_append,
          List.countP_append]
        exact Nat.le_add_right _ _
      exact ⟨N + d + 1, by omega⟩

/-! ## The reader -/

/-- A connection as its reader has it: the bytes that are to come, and the answers of `recv`. -/
structure Conn where
  inbox : List Byte
  script : List RecvResult

namespace Conn

/-- The connection stays open for at least `n` answers that bring something, whatever comes later. -/
def Feeds (c : Conn) (n : Nat) : Prop :=
  ∃ now later, c.script = now ++ later ∧ (∀ r ∈ now, Live r) ∧ n ≤ now.countP brings

/-- `recvn(fd, buf + off, n)`: what it returns, the array, and the connection behind it. -/
def recvn {k : Nat} (c : Conn) (buf : Buf k) (off : Nat) (n : UInt64) :
    Option (Int × Buf k × Conn) :=
  match CommServer.recvn buf off n c.inbox c.script with
  | (s, some (.ret v)) =>
      some (v, s.buf,
        { inbox := s.inbox
          script := (recvnLoop n).rest
            { buf := buf, nleft := n.toInt64.toInt, ptr := off, inbox := c.inbox } c.script })
  | _ => none

/-- A reader of frames: `recvn` of the header, `atoi`, and `recvn` of as many bytes behind a copy of
the header.  It gives up on a frame that is not whole. -/
def readFrame (c : Conn) : Option (List Byte × Conn) := do
  let (headlen, recvHead, c) ← c.recvn (Buf.zeroed 128) 0 8
  if headlen ≠ pkgheadLength then none else
  let msglen := atoi recvHead.bytes
  let recvMsg ← startMessage recvHead
  let (ret, recvMsg, c) ← c.recvn recvMsg pkgheadLength (sizeOfInt msglen)
  if ret ≠ msglen then none else
  return (recvMsg.bytes.take (pkgheadLength + msglen.toNat), c)

/-- As many frames as asked for, one after the other. -/
def readFrames : Nat → Conn → Option (List (List Byte) × Conn)
  | 0, c => some ([], c)
  | count + 1, c => do
      let (text, c) ← c.readFrame
      let (texts, c) ← readFrames count c
      return (text :: texts, c)

theorem recvn_eq_some {k : Nat} {c c' : Conn} {buf buf' : Buf k} {off : Nat} {n : UInt64} {v : Int}
    (h : c.recvn buf off n = some (v, buf', c')) :
    ∃ s, CommServer.recvn buf off n c.inbox c.script = (s, some (.ret v)) ∧ s.buf = buf' ∧
      s.inbox = c'.inbox := by
  unfold recvn at h
  split at h
  · rename_i s v' hrun
    cases h
    exact ⟨s, hrun, rfl, rfl⟩
  · cases h

/-- The reception of `process_parse_20160927` is this reader: what the reader takes off is what the
function goes on to parse. -/
theorem receiveFrame_of_readFrame {c c' : Conn} {text : List Byte}
    (h : c.readFrame = some (text, c')) :
    ∃ body recvMsg, receiveFrame { stream := c.inbox, head := c.script, body := body } =
        .accepted recvMsg ∧ text <+: recvMsg.bytes := by
  unfold readFrame at h
  rcases Option.bind_eq_some_iff.1 h with ⟨⟨headlen, recvHead, c₁⟩, hfirst, h⟩
  dsimp only at h
  split_ifs at h with hlen
  rcases Option.bind_eq_some_iff.1 h with ⟨start, hstart, h⟩
  rcases Option.bind_eq_some_iff.1 h with ⟨⟨ret, recvMsg, c₂⟩, hsecond, h⟩
  dsimp only at h
  split_ifs at h with hret
  cases h
  rcases recvn_eq_some hfirst with ⟨s₁, hrun₁, rfl, hinbox₁⟩
  rcases recvn_eq_some hsecond with ⟨s₂, hrun₂, rfl, -⟩
  refine ⟨c₁.script, s₂.buf, ?_, List.take_prefix _ _⟩
  have hhead : receiveHead { stream := c.inbox, head := c.script, body := c₁.script } =
      (s₁, some (.ret headlen)) := hrun₁
  have hbody : receiveBody start (atoi s₁.buf.bytes) s₁.inbox c₁.script = (s₂, some (.ret ret)) := by
    rw [hinbox₁]
    exact hrun₂
  simp [receiveFrame, hhead, not_not.1 hlen, hstart, hbody, not_not.1 hret]

/-- A `recvn` takes its bytes off the connection and nothing of what follows. -/
theorem recvn_fed {k : Nat} {c : Conn} (buf : Buf k) (off : Nat) (n : UInt64) {x y : List Byte}
    (hk : k < 2 ^ 31) (hfit : off + n.toNat ≤ k) (hinbox : c.inbox = x ++ y)
    (hx : x.length = n.toNat) {total : Nat} (hfeeds : c.Feeds (n.toNat + total)) :
    ∃ buf' c', c.recvn buf off n = some ((n.toNat : Int), buf', c') ∧
      buf.blit off x = some buf' ∧ c'.inbox = y ∧ c'.Feeds total := by
  have hstream : n.toNat ≤ c.inbox.length := by
    rw [hinbox, List.length_append]
    omega
  have htake : c.inbox.take n.toNat = x := by rw [hinbox, ← hx, List.take_left]
  rcases hfeeds with ⟨now, later, hscript, hlive, henough⟩
  let init : RecvnSt k := { buf := buf, nleft := n.toInt64.toInt, ptr := off, inbox := c.inbox }
  have hinit : RecvnInv buf off n c.inbox 0 init :=
    recvnInv_init buf off n (by omega) (by omega) c.inbox
  rcases recvnLoop_fed hk hfit hstream hlive (by omega) hinit with ⟨hret, hfull, hcount⟩
  -- The run ends while the connection is open.
  rcases EventLoop.run_append hret later with ⟨hrun, hrest⟩
  rw [← hscript] at hrun hrest
  have hsuffix := EventLoop.rest_suffix (L := recvnLoop n) init now
  refine ⟨((recvnLoop n).run init now).1.buf,
    { inbox := ((recvnLoop n).run init now).1.inbox
      script := (recvnLoop n).rest init c.script }, ?_, ?_, ?_,
    (recvnLoop n).rest init now, later, hrest, fun r hr => hlive r (hsuffix.subset hr), by omega⟩
  · have hcall : CommServer.recvn buf off n c.inbox c.script =
        (((recvnLoop n).run init now).1, some (.ret n.toNat)) := hrun.trans (Prod.ext rfl hret)
    rw [recvn, hcall]
  · rw [← htake]
    exact hfull.stored
  · rw [hfull.inbox, hinbox, ← hx, List.drop_left]

/-- One frame is taken off, whatever follows it. -/
theorem readFrame_frame {c : Conn} {body tail : List Byte}
    (hlen : body.length ≤ maxbufLen - pkgheadLength) (hinbox : c.inbox = frame body ++ tail)
    {total : Nat} (hfeeds : c.Feeds ((frame body).length + total)) :
    ∃ c', c.readFrame = some (frame body, c') ∧ c'.inbox = tail ∧ c'.Feeds total := by
  have hmax : maxbufLen = 10240 := rfl
  have hhead : pkgheadLength = 8 := rfl
  have hwidth : (zeroPadded 8 body.length).length = 8 := length_header (by omega)
  have hsize : (sizeOfInt (body.length : Int)).toNat = body.length := toNat_sizeOfInt (by omega)
  rw [length_frame (by omega), Nat.add_assoc] at hfeeds
  rw [frame_eq, List.append_assoc] at hinbox
  obtain ⟨recvHead, c₁, hfirst, hstored, hinbox₁, hfeeds₁⟩ :=
    recvn_fed (Buf.zeroed 128) 0 8 (by decide) (by decide) hinbox hwidth hfeeds
  have hbytes : recvHead.bytes = zeroPadded 8 body.length ++ 0 :: List.replicate 119 0 := by
    have hblit := ((Buf.blit_eq_some_iff _ _ _ _).1 hstored).2
    rw [hwidth] at hblit
    exact hblit
  have hmsglen : atoi recvHead.bytes = body.length := by
    rw [hbytes]
    exact atoi_zeroPadded (by omega) _
  rcases startMessage_of_header hwidth hbytes with ⟨start, hstart, hcopied⟩
  obtain ⟨recvMsg, c₂, hsecond, hbehind, hinbox₂, hfeeds₂⟩ :=
    recvn_fed start pkgheadLength (sizeOfInt body.length) (by decide) (by omega) hinbox₁ hsize.symm
      (hsize ▸ hfeeds₁)
  have hwhole : (Buf.zeroed maxbufLen).blit 0 (frame body) = some recvMsg := by
    rw [frame_eq]
    refine Buf.blit_append hstart ?_
    rw [hwidth]
    exact hbehind
  refine ⟨c₂, ?_, hinbox₂, hfeeds₂⟩
  have htext : recvMsg.bytes.take (pkgheadLength + body.length) = frame body := by
    rw [((Buf.blit_eq_some_iff _ _ _ _).1 hwhole).2, List.take_zero, List.nil_append]
    exact List.take_left' (length_frame (by omega))
  rw [hsize] at hsecond
  simp [readFrame, hfirst, hmsglen, hcopied, hsecond, htext]

/-- And so is one after the other. -/
theorem readFrames_frames {c : Conn} (bodies : List (List Byte))
    (hlen : ∀ body ∈ bodies, body.length ≤ maxbufLen - pkgheadLength) {tail : List Byte}
    (hinbox : c.inbox = (bodies.map frame).flatten ++ tail)
    (hfeeds : c.Feeds (bodies.map frame).flatten.length) :
    ∃ c', c.readFrames bodies.length = some (bodies.map frame, c') ∧ c'.inbox = tail := by
  induction bodies generalizing c with
  | nil => exact ⟨c, rfl, hinbox⟩
  | cons body bodies ih =>
      rw [List.map_cons, List.flatten_cons, List.append_assoc] at hinbox
      rw [List.map_cons, List.flatten_cons, List.length_append] at hfeeds
      rcases readFrame_frame (hlen body List.mem_cons_self) hinbox hfeeds with
        ⟨c₁, hfirst, hinbox₁, hfeeds₁⟩
      rcases ih (fun b hb => hlen b (List.mem_cons_of_mem _ hb)) hinbox₁ hfeeds₁ with
        ⟨c₂, hothers, hinbox₂⟩
      exact ⟨c₂, by simp [readFrames, hfirst, hothers], hinbox₂⟩

end Conn

/-! ## The frames -/

/-- `resp` is formed by the length-prefixed protocol, and `text` is what the format of `send_msg`
expands to: in `process_parse_20160927`, for a service name and a reply within their bounds, or in
`process_main_20160927` after a timeout. -/
inductive Framed : Response → List Byte → Prop
  | reply {ret : Int} {tranCode : Buf 64} {responseData : Buf maxbufLen} {resp : Response}
      (htran : tranCode.str.length ≤ 63) (hdata : responseData.str.length ≤ maxbufLen - 100)
      (h : formatFramed ret tranCode responseData = some resp) :
      Framed resp (framedText ((resp.sendlen : Int) - pkgheadLength) resp.respCode.str tranCode.str
        responseData.str)
  | timeout {resp : Response} (h : formatTimeout20160927 = some resp) :
      Framed resp (framedTimeoutText ((resp.sendlen : Int) - pkgheadLength) resp.respCode.str)

/-- What the format expands to is stored whole, `sendlen` is its length, and its first eight bytes
are the digits of the number of bytes behind them. -/
structure SelfFramed (resp : Response) (text : List Byte) : Prop where
  stored : resp.sendMsg.str = text
  sendlen : resp.sendlen = text.length
  headed : pkgheadLength ≤ text.length
  digits : ∀ c ∈ text.take pkgheadLength, isDigit c = true
  counted : ∀ rest, atoi (text.take pkgheadLength ++ 0 :: rest) = (text.drop pkgheadLength).length

/-- The bytes that `send_nbytes(conn, send_msg, sendlen)` is asked to send. -/
def packet (resp : Response) : List Byte :=
  resp.sendMsg.bytes.take resp.sendlen

/-- Both functions form a frame of a body that `recv_msg` has room for. -/
theorem Framed.eq_frame {resp : Response} {text : List Byte} (h : Framed resp text) :
    ∃ body, text = frame body ∧ body.length ≤ maxbufLen - pkgheadLength ∧
      resp.sendMsg.str = frame body ∧ resp.sendlen = 8 + body.length := by
  have hmax : maxbufLen = 10240 := rfl
  have hhead : pkgheadLength = 8 := rfl
  cases h with
  | @reply ret tranCode responseData _ htran hdata hformat =>
      rcases formatFramed_spec ret htran hdata with ⟨resp', hresp', hcode, hmsg, hlen⟩
      rw [hformat] at hresp'
      cases hresp'
      have hone := (respCodeOf_clean ret).2.2
      have hsize := length_frameBody (respCodeOf ret) tranCode.str responseData.str
      refine ⟨_, ?_, by omega, hmsg, hlen⟩
      have hcount : (resp.sendlen : Int) - pkgheadLength =
          (frameBody (respCodeOf ret) tranCode.str responseData.str).length := by omega
      rw [hcount, hcode]
      rfl
  | timeout hformat =>
      rcases formatTimeout20160927_spec with ⟨resp', hresp', hcode, hmsg, hlen⟩
      rw [hformat] at hresp'
      cases hresp'
      refine ⟨_, ?_, by decide, hmsg, hlen⟩
      rw [hcode, hlen]
      rfl

theorem Framed.selfFramed {resp : Response} {text : List Byte} (h : Framed resp text) :
    SelfFramed resp text := by
  have hmax : maxbufLen = 10240 := rfl
  have hhead : pkgheadLength = 8 := rfl
  rcases h.eq_frame with ⟨body, rfl, hbody, hmsg, hlen⟩
  have hwidth : (zeroPadded 8 body.length).length = 8 := length_header (by omega)
  have hsize : (frame body).length = 8 + body.length := length_frame (by omega)
  have htake : (frame body).take pkgheadLength = zeroPadded 8 body.length := by
    rw [frame_eq, hhead, List.take_left' hwidth]
  have hdrop : (frame body).drop pkgheadLength = body := by
    rw [frame_eq, hhead, List.drop_left' hwidth]
  refine ⟨hmsg, by omega, by omega, ?_, ?_⟩
  · intro c hc
    rw [htake] at hc
    exact isDigit_of_mem_zeroPadded hc
  · intro rest
    rw [htake, hdrop]
    exact atoi_zeroPadded (by omega) rest

theorem Framed.packet_eq {resp : Response} {text : List Byte} (h : Framed resp text) :
    packet resp = text := by
  have hself := h.selfFramed
  have hpre : text <+: resp.sendMsg.bytes := by
    rw [← hself.stored]
    exact cstr_prefix _
  rw [packet, hself.sendlen]
  exact (List.prefix_iff_eq_take.1 hpre).symm

/-! ## Runs -/

/-- Every response of a run is one of these frames. -/
theorem framed_of_run {cfg : CommSvrSocket} {rx : FramedReception} {o : TuxOutcome}
    {tx : List SendResult} {resp : Response}
    (h : (processParse20160927 cfg rx o tx).response = some resp) : ∃ text, Framed resp text := by
  unfold processParse20160927 at h
  split at h
  · cases h
  · cases h
  · cases h
  · rcases exchange_formed h with ⟨req, t, hreq, hcall, hresp⟩
    rcases parseFramed_fits hreq with ⟨htran, hterm⟩
    have hdata := (commTuxTpcall_some hterm hcall).2
    exact ⟨_, .reply htran (hdata ▸ length_answerData_le o) hresp⟩

/-- A terminated message is answered when `comm_tux_tpcall` returns. -/
theorem answered_of_terminated (cfg : CommSvrSocket) {recvMsg : Buf maxbufLen} {o : TuxOutcome}
    (tx : List SendResult) (h : (0 : Byte) ∈ recvMsg.bytes)
    (hpos : o.Answered → 0 ≤ o.recvlen.toInt) :
    ∃ resp, (parseReceived20160927 cfg recvMsg o tx).response = some resp := by
  rcases parseFramed_spec h with ⟨req, hreq, -⟩
  rcases parseFramed_fits hreq with ⟨htran, hterm⟩
  obtain ⟨t, hcall⟩ := commTuxTpcall_returns req.tranCode.bytes cfg.tuxEnvstr.bytes hterm hpos
  have hdata := (commTuxTpcall_some hterm hcall).2
  obtain ⟨resp, hresp, -⟩ := formatFramed_spec t.ret htran (hdata ▸ length_answerData_le o)
  exact ⟨resp, by simp [parseReceived20160927, exchange, hreq, hcall, hresp, sendResponse]⟩

/-- The packets of any responses, read back from a connection that goes on behind them.  It has
brought enough after `N` answers, and what happens later does not matter. -/
theorem readFrames_packets {resps : List Response} (h : ∀ resp ∈ resps, ∃ text, Framed resp text)
    (tail : List Byte) {ω : Nat → RecvResult} (hlive : ∀ i, Live (ω i))
    (hbrings : ∀ i, ∃ j, i ≤ j ∧ brings (ω j) = true) :
    ∃ N, ∀ later, ∃ c', Conn.readFrames resps.length
        { inbox := (resps.map packet).flatten ++ tail
          script := EventLoop.answers ω N ++ later } =
      some (resps.map packet, c') ∧ c'.inbox = tail := by
  -- Each packet is a frame.
  obtain ⟨bodies, hbodies, hlen⟩ : ∃ bodies : List (List Byte), resps.map packet = bodies.map frame ∧
      ∀ body ∈ bodies, body.length ≤ maxbufLen - pkgheadLength := by
    induction resps with
    | nil => exact ⟨[], rfl, by simp⟩
    | cons resp resps ih =>
        rcases ih (fun r hr => h r (List.mem_cons_of_mem _ hr)) with ⟨bodies, hbodies, hlen⟩
        rcases h resp List.mem_cons_self with ⟨text, hframed⟩
        rcases hframed.eq_frame with ⟨body, htext, hbody, -⟩
        refine ⟨body :: bodies, ?_, ?_⟩
        · rw [List.map_cons, List.map_cons, hbodies, hframed.packet_eq, htext]
        · intro b hb
          rcases List.mem_cons.1 hb with rfl | hmem
          · exact hbody
          · exact hlen b hmem
  have hcount : resps.length = bodies.length := by
    have heq := congrArg List.length hbodies
    simpa using heq
  rcases exists_countP_brings hbrings (bodies.map frame).flatten.length with ⟨N, hN⟩
  refine ⟨N, fun later => ?_⟩
  rw [hbodies, hcount]
  refine Conn.readFrames_frames bodies hlen rfl ⟨_, later, rfl, ?_, hN⟩
  intro r hr
  rcases List.mem_map.1 hr with ⟨i, -, rfl⟩
  exact hlive i

/-- The length-prefixed protocol is consistent with itself.  Both functions form their frames for
every service name and reply in bounds, every run forms no others, each frame tells its own length,
and a reader of header and body takes any sequence of them apart, in whatever parts and with whatever
interruptions the bytes come, and leaves what follows. -/
theorem frames_consistent :
    (∀ (ret : Int) (tranCode : Buf 64) (responseData : Buf maxbufLen), tranCode.str.length ≤ 63 →
        responseData.str.length ≤ maxbufLen - 100 →
        ∃ resp, formatFramed ret tranCode responseData = some resp) ∧
      (∃ resp, formatTimeout20160927 = some resp) ∧
      (∀ cfg (recvMsg : Buf maxbufLen) (o : TuxOutcome) tx, (0 : Byte) ∈ recvMsg.bytes →
        (o.Answered → 0 ≤ o.recvlen.toInt) →
        ∃ resp, (parseReceived20160927 cfg recvMsg o tx).response = some resp) ∧
      (∀ cfg rx o tx resp, (processParse20160927 cfg rx o tx).response = some resp →
        ∃ text, Framed resp text) ∧
      (∀ resp text, Framed resp text → SelfFramed resp text) ∧
      ∀ (resps : List Response) (tail : List Byte) (ω : Nat → RecvResult),
        (∀ resp ∈ resps, ∃ text, Framed resp text) → (∀ i, Live (ω i)) →
        (∀ i, ∃ j, i ≤ j ∧ brings (ω j) = true) →
        ∃ N, ∀ later, ∃ c', Conn.readFrames resps.length
            { inbox := (resps.map packet).flatten ++ tail
              script := EventLoop.answers ω N ++ later } =
          some (resps.map packet, c') ∧ c'.inbox = tail := by
  refine ⟨?_, ?_, ?_, ?_, ?_, ?_⟩
  · intro ret tranCode responseData htran hdata
    rcases formatFramed_spec ret htran hdata with ⟨resp, hresp, -⟩
    exact ⟨resp, hresp⟩
  · rcases formatTimeout20160927_spec with ⟨resp, hresp, -⟩
    exact ⟨resp, hresp⟩
  · intro cfg recvMsg o tx h hpos
    exact answered_of_terminated cfg tx h hpos
  · intro cfg rx o tx resp h
    exact framed_of_run h
  · intro resp text h
    exact h.selfFramed
  · intro resps tail ω h hlive hbrings
    exact readFrames_packets h tail hlive hbrings

/-- Three bytes at a time, with an interruption before each part. -/
def drip (i : Nat) : RecvResult :=
  if i % 2 = 0 then .failed .eintr else .data 3

/-- The reply `HELLO` of `TOUPPER` and a timeout, one behind the other. -/
theorem frames_consistent_sample :
    ∃ reply timeout, formatFramed eOk (snprintf (Buf.zeroed 64) (ascii "TOUPPER"))
        (snprintf (Buf.zeroed maxbufLen) (ascii "HELLO")) = some reply ∧
      formatTimeout20160927 = some timeout ∧
      SelfFramed timeout
        (framedTimeoutText ((timeout.sendlen : Int) - pkgheadLength) timeout.respCode.str) ∧
      ∃ N, ∀ later, ∃ c', Conn.readFrames 2
          { inbox := [packet reply, packet timeout].flatten ++ [0x30]
            script := EventLoop.answers drip N ++ later } =
        some ([packet reply, packet timeout], c') ∧ c'.inbox = [0x30] := by
  rcases frames_consistent with ⟨hformat, ⟨timeout, htimeout⟩, -, -, hself, hread⟩
  have htran : (snprintf (Buf.zeroed 64) (ascii "TOUPPER")).str.length ≤ 63 := by
    rw [snprintf_str_of_lt _ (by decide) (by decide)]
    decide
  have hdata : (snprintf (Buf.zeroed maxbufLen) (ascii "HELLO")).str.length ≤ maxbufLen - 100 := by
    rw [snprintf_str_of_lt _ (by decide) (by decide)]
    decide
  obtain ⟨reply, hreply⟩ := hformat eOk _ _ htran hdata
  have hframed : ∀ resp ∈ [reply, timeout], ∃ text, Framed resp text := by
    intro resp hresp
    rcases List.mem_pair.1 hresp with rfl | rfl
    · exact ⟨_, .reply htran hdata hreply⟩
    · exact ⟨_, .timeout htimeout⟩
  have hlive (i : Nat) : Live (drip i) := by
    by_cases hi : i % 2 = 0
    · exact Or.inr (by simp [drip, hi])
    · exact Or.inl (by simp [drip, hi, brings])
  have hbrings (i : Nat) : ∃ j, i ≤ j ∧ brings (drip j) = true :=
    ⟨2 * i + 1, by omega, by simp [drip, brings, Nat.add_mod]⟩
  exact ⟨reply, timeout, hreply, htimeout, hself _ _ (.timeout htimeout),
    hread [reply, timeout] [0x30] drip hframed hlive hbrings⟩

end Exchange
end CommServer
