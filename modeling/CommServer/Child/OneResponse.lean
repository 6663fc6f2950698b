import CommServer.Child.Moves

/-!
# OneResponse — what a connection child sends in its whole life

A child sends its normal response or the timeout response (`one_response`), in every run in which the
alarm, if it strikes, strikes before any byte of the normal response went out.  After that it does
not: the timeout branch of `process_main` sends on the same connection without looking at what was
sent already (`two_responses`).

The invariant `Child.Inv` says for each place of the child what is on the wire there; `inv_step` is
its step lemma.
-/

namespace CommServer

open CLib Transition Protocol

/-! ## The responses -/

/-- The message `1$$`. -/
def timeoutMessage : Message :=
  { code := respcodeTimeout
    tranCode := []
    data := []
    code_free := by decide
    tranCode_free := by decide }

/-- `resp` is ready to be sent, and carries `m`. -/
structure Response.Carries (resp : Response) (m : Message) : Prop where
  sendMsg : resp.sendMsg.str = m.text
  sendlen : resp.sendlen = m.text.length

theorem Response.Carries.text_prefix {resp : Response} {m : Message} (h : resp.Carries m) :
    m.text <+: resp.sendMsg.bytes := by
  rw [← h.sendMsg]
  exact cstr_prefix _

/-- The wire holds a prefix of exactly one response: the timeout response or the normal one. -/
def Child.OneResponse (s : Child) : Prop :=
  s.wire <+: timeoutMessage.text ∨
    ∃ resp m, s.normal = some resp ∧ resp.Carries m ∧ s.wire <+: m.text

theorem formatTimeout_spec : ∃ resp, formatTimeout = some resp ∧ resp.Carries timeoutMessage := by
  obtain ⟨b, hb, hstr⟩ := storeRespCode_spec
    (show (0 : Byte) ∉ respcodeTimeout by decide) (by decide)
  have hmsg := snprintf_str_of_lt (Buf.zeroed maxbufLen)
    (show timeoutMessage.text.length < maxbufLen by decide) (by decide)
  have hterm : (0 : Byte) ∈ (snprintf (Buf.zeroed maxbufLen) timeoutMessage.text).bytes := by
    apply Buf.zero_mem_of_length_str_lt
    rw [hmsg]
    decide
  have hlen : strlen (snprintf (Buf.zeroed maxbufLen) timeoutMessage.text).bytes =
      some timeoutMessage.text.length := by
    rw [strlen_of_mem hterm]
    exact congrArg some (congrArg List.length hmsg)
  have htext : b.str ++ [dollar, dollar] = timeoutMessage.text := by
    rw [hstr]
    rfl
  let resp : Response :=
    { respCode := b
      sendMsg := snprintf (Buf.zeroed maxbufLen) timeoutMessage.text
      sendlen := timeoutMessage.text.length }
  have hresp : formatTimeout = some resp := by
    simp only [formatTimeout, hb, htext, hlen, Option.bind_eq_bind, Option.bind_some]
    rfl
  exact ⟨resp, hresp, hmsg, rfl⟩

/-- The service name and data packet of a request that `process_parse` took from a message. -/
structure Request.Ready (req : Request) : Prop where
  tranCode_free : dollar ∉ req.tranCode.str
  tranCode_short : req.tranCode.str.length ≤ 63
  dataTerminated : (0 : Byte) ∈ req.requestData.bytes

theorem ready_of_parseRequest {recvMsg : Buf maxbufLen} {req : Request}
    (h : parseRequest recvMsg = some req) : req.Ready := by
  have hterm : (0 : Byte) ∈ recvMsg.bytes := by
    by_contra hmem
    rw [parseRequest_none hmem] at h
    cases h
  rcases parseRequest_spec hterm with ⟨req', hreq', hasks⟩
  have hsame : req' = req := Option.some.inj (hreq'.symm.trans h)
  rw [← hsame]
  exact ⟨hasks.tranCode_facts.1, hasks.tranCode_facts.2, hasks.dataTerminated⟩

theorem carries_of_formatResponse {ret : Int} {req : Request} {responseData : Buf maxbufLen}
    {resp : Response} (hreq : req.Ready) (hdata : responseData.str.length ≤ maxbufLen - 100)
    (h : formatResponse ret req.tranCode responseData = some resp) : ∃ m, resp.Carries m := by
  rcases formatResponse_spec ret hreq.tranCode_short hdata with ⟨resp', hresp', -, hmsg, hlen⟩
  have hsame : resp' = resp := Option.some.inj (hresp'.symm.trans h)
  let m : Message :=
    { code := respCodeOf ret
      tranCode := req.tranCode.str
      data := responseData.str
      code_free := (respCodeOf_clean ret).2.1
      tranCode_free := hreq.tranCode_free }
  have htext : resp'.sendMsg.str = m.text := hmsg
  exact ⟨m, hsame ▸ ⟨htext, by rw [hlen, htext]⟩⟩

/-! ## The invariant -/

/-- A `send_nbytes` of `resp` is under way, and all that was ever sent is what it has sent. -/
structure Sends (wire : List Byte) (resp : Response) (m : Message) (st : SendSt) : Prop where
  carries : resp.Carries m
  inv : SendInv resp.sendMsg.bytes m.text.length st
  wire : wire = st.wire

/-- What is on the wire, for each place of the child. -/
def Child.Inv (s : Child) : Prop :=
  match s.pc with
  | .start | .portKnown | .alarmSet | .receiving _ _ | .received _ | .jumped => s.wire = []
  | .calling req => s.wire = [] ∧ req.Ready
  | .called req t => s.wire = [] ∧ req.Ready ∧ t.responseBuf.str.length ≤ maxbufLen - 100
  | .sending resp st => s.normal = some resp ∧ ∃ m, Sends s.wire resp m st
  | .sendingTimeout resp st => Sends s.wire resp timeoutMessage st
  | _ => s.OneResponse

theorem Sends.wire_prefix {wire : List Byte} {resp : Response} {m : Message} {st : SendSt}
    (h : Sends wire resp m st) : wire <+: m.text := by
  rw [h.wire]
  exact h.inv.wire_prefix h.carries.text_prefix

theorem Sends.start {resp : Response} {m : Message} (h : resp.Carries m) :
    Sends [] resp m (sendInit resp.sendlen) :=
  ⟨h, h.sendlen ▸ sendInit_inv _ _, rfl⟩

/-- One `send` of the response. -/
theorem Sends.round {wire : List Byte} {resp : Response} {m : Message} {st st' : SendSt}
    {r : SendResult} (h : Sends wire resp m st)
    (hround : sendRound resp.sendMsg.bytes st r = .again st') :
    Sends (wire ++ sendBytes resp.sendMsg.bytes st r) resp m st' := by
  refine ⟨h.carries, sendRound_inv h.carries.text_prefix.length_le h.inv hround, ?_⟩
  rw [sendRound_wire hround, h.wire]

theorem oneResponse_of_nil {s : Child} (h : s.wire = []) : s.OneResponse := by
  left
  rw [h]
  exact List.nil_prefix

/-- Wherever the child is, its invariant leaves one response. -/
theorem Child.Inv.oneResponse {s : Child} (h : s.Inv) : s.OneResponse := by
  unfold Child.Inv at h
  split at h
  -- In `comm_tux_tpcall`, and behind it: nothing is sent yet.
  case h_7 req _ => exact oneResponse_of_nil h.1
  case h_8 req t _ => exact oneResponse_of_nil h.1
  -- Sending the normal response.
  case h_9 resp st _ =>
    rcases h with ⟨hnormal, m, hsends⟩
    exact Or.inr ⟨resp, m, hnormal, hsends.carries, hsends.wire_prefix⟩
  -- Sending the timeout response.
  case h_10 resp st _ => exact Or.inl h.wire_prefix
  case h_11 => exact h
  all_goals exact oneResponse_of_nil h

/-! ## Steps -/

section Steps

variable {cfg : CommSvrSocket} {s s' : Child}

/-- The alarm strikes while `process_main` can be jumped back to, and before anything was sent. -/
def BeforeOutput (s : Child) (a : ChildAct) : Prop :=
  a = .sigalrm → s.pc.inMain = true ∧ s.wire = []

/-- The step lemma. -/
theorem inv_step {a : ChildAct} (h : s.Inv) (hC : BeforeOutput s a)
    (hstep : childStep cfg s a = some s') : s'.Inv := by
  have hone := h.oneResponse
  cases move_of_childStep hstep with
  -- Up to the request nothing is sent.
  | portFound hpc => simpa only [Child.Inv, hpc] using h
  | portMissing => exact hone
  | setAlarm hpc => simpa only [Child.Inv, hpc] using h
  | enter errno rcvbuf stream hpc => simpa only [Child.Inv, hpc] using h
  | recvAgain r rBufLen st st' hpc => simpa only [Child.Inv, hpc] using h
  | recvReturns r rBufLen st st' v hpc => simpa only [Child.Inv, hpc] using h
  | recvFaults => exact hone
  | recvFull rBufLen st hpc => simpa only [Child.Inv, hpc] using h
  -- The fields are taken out of the message, and Tuxedo is called for them.
  | parses recvMsg req hpc hreq =>
      have hnil : s.wire = [] := by simpa only [Child.Inv, hpc] using h
      exact ⟨hnil, ready_of_parseRequest hreq⟩
  | parseFaults => exact hone
  | calls o req t hpc hcall =>
      obtain ⟨hnil, hreq⟩ : s.wire = [] ∧ req.Ready := by simpa only [Child.Inv, hpc] using h
      have hdata : t.responseBuf.str.length ≤ maxbufLen - 100 := by
        rw [(commTuxTpcall_some hreq.dataTerminated hcall).2]
        exact length_answerData_le o
      exact ⟨hnil, hreq, hdata⟩
  | callFaults => exact hone
  -- The normal response is formed; with it the wire becomes its business.
  | formats req t resp hpc hresp =>
      obtain ⟨hnil, hreq, hdata⟩ :
          s.wire = [] ∧ req.Ready ∧ t.responseBuf.str.length ≤ maxbufLen - 100 := by
        simpa only [Child.Inv, hpc] using h
      rcases carries_of_formatResponse hreq hdata hresp with ⟨m, hm⟩
      refine ⟨rfl, m, ?_⟩
      show Sends s.wire resp m (sendInit resp.sendlen)
      rw [hnil]
      exact Sends.start hm
  | formatFaults => exact hone
  | sends r resp st st' hpc hround =>
      obtain ⟨hnormal, m, hsends⟩ : s.normal = some resp ∧ ∃ m, Sends s.wire resp m st := by
        simpa only [Child.Inv, hpc] using h
      exact ⟨hnormal, m, hsends.round hround⟩
  -- From here to the exit nothing more is sent, except after the jump.
  | sendFails => exact hone
  | sendEnds => exact hone
  | parseReturns => exact hone
  -- The timeout response is formed, and by the invariant it is the first.
  | formatsTimeout resp hpc hresp =>
      have hnil : s.wire = [] := by simpa only [Child.Inv, hpc] using h
      rcases formatTimeout_spec with ⟨resp', hresp', hcarries⟩
      have hsame : resp = resp' := Option.some.inj (hresp.symm.trans hresp')
      show Sends s.wire resp timeoutMessage (sendInit resp.sendlen)
      rw [hnil, hsame]
      exact Sends.start hcarries
  | formatTimeoutFaults => exact hone
  | sendsTimeout r resp st st' hpc hround =>
      have hsends : Sends s.wire resp timeoutMessage st := by simpa only [Child.Inv, hpc] using h
      exact hsends.round hround
  | timeoutFails => exact hone
  | timeoutEnds => exact hone
  | closes => exact hone
  | exits => exact hone
  | jumps => exact (hC rfl).2
  | strays => exact hone

end Steps

/-! ## Runs -/

/-- Only the alarm can break a condition on where the alarm strikes. -/
theorem along_interrupted {cfg : CommSvrSocket} {C : Child → ChildAct → Prop} {s : Child}
    {as bs : List ChildAct} (hquiet : ∀ s a, Quiet a → C s a) (has : ∀ a ∈ as, Quiet a)
    (hbs : ∀ a ∈ bs, Quiet a) (hC : ∀ t, exec (childStep cfg) s as = some t → C t .sigalrm) :
    Along (childStep cfg) C s (as ++ .sigalrm :: bs) := by
  apply along_append
  · exact along_of_forall_mem (fun a ha s => hquiet s a (has a ha)) s
  · intro t ht
    refine ⟨hC t ht, ?_⟩
    intro t' _
    exact along_of_forall_mem (fun a ha s => hquiet s a (hbs a ha)) t'

theorem Child.inv_init : Child.init.Inv :=
  rfl

/-- However it is interrupted before its first byte, a child never sends bytes of two responses. -/
theorem one_response (cfg : CommSvrSocket) {as : List ChildAct} {s : Child}
    (hC : Along (childStep cfg) BeforeOutput Child.init as)
    (h : exec (childStep cfg) Child.init as = some s) : s.OneResponse := by
  have hinv : s.Inv :=
    exec_induct_along (I := Child.Inv) (fun _ _ _ hI hC hstep => inv_step hI hC hstep)
      Child.inv_init hC h
  exact hinv.oneResponse

/-- The alarm ends the reception, and the timeout response goes out in two parts. -/
theorem one_response_sample :
    ∃ s, exec (childStep CommSvrSocket.shipped) Child.init
        ([.localPort true, .go, .enter .clear (.value 87380) []] ++
          .sigalrm :: [.go, .send (.accepted 2), .send (.accepted 1)]) = some s ∧
      s.OneResponse ∧ s.wire = timeoutMessage.text := by
  have hC : Along (childStep CommSvrSocket.shipped) BeforeOutput Child.init
      ([.localPort true, .go, .enter .clear (.value 87380) []] ++
        .sigalrm :: [.go, .send (.accepted 2), .send (.accepted 1)]) := by
    apply along_interrupted
    · intro s a hquiet halarm
      exact absurd halarm hquiet
    · simp [Quiet]
    · simp [Quiet]
    · intro t ht _
      have hstate := Option.some.inj ht
      exact hstate ▸ ⟨rfl, rfl⟩
  have hsent : (exec (childStep CommSvrSocket.shipped) Child.init
      ([.localPort true, .go, .enter .clear (.value 87380) []] ++
        .sigalrm :: [.go, .send (.accepted 2), .send (.accepted 1)])).map Child.wire =
      some timeoutMessage.text := by
    decide +kernel
  rcases Option.map_eq_some_iff.1 hsent with ⟨s, hrun, hwire⟩
  exact ⟨s, hrun, one_response _ hC hrun, hwire⟩

/-! ## Two responses -/

/-- `0$TOUPPER$A`. -/
def sampleResponse : List Byte :=
  [0x30, 0x24, 0x54, 0x4f, 0x55, 0x50, 0x50, 0x45, 0x52, 0x24, 0x41]

/-- The service `TOUPPER` answers `A`, and the connection accepts the response at once. -/
def sampleRun : ParseRun :=
  processParse CommSvrSocket.shipped (Reception.atOnce sampleRequest) (.returning 0 1 [0x41])
    [.accepted sampleResponse.length]

theorem sampleRun_sent :
    sampleRun.sent = sampleResponse ∧ sampleRun.ret = some eOk ∧
      ∃ resp, sampleRun.response = some resp ∧ resp.sendMsg.str = sampleResponse := by
  have hans : (TuxOutcome.returning 0 1 [0x41]).Answered := by
    refine ⟨⟨by decide, rfl, rfl⟩, ?_⟩
    show (1 : Int64).toInt ≤ (10240 : Int) - 100
    decide
  have hreply : (TuxOutcome.returning 0 1 [0x41]).answerData = [0x41] := by
    have hstr : (TuxOutcome.returning 0 1 [0x41]).reply.str = [0x41] :=
      cstr_append_zero (by decide) (List.replicate 10239 0)
    rw [TuxOutcome.answerData, if_pos hans, hstr]
    rfl
  rcases delivered_sampleRequest.parsed (by decide) (by decide) with ⟨recvMsg, hstr, hterm, hrun⟩
  obtain ⟨req, t, resp, m, hex⟩ := parseReceived_spec CommSvrSocket.shipped
    [.accepted sampleResponse.length] hterm (o := .returning 0 1 [0x41]) (fun _ => by decide)
  have htext : m.text = sampleResponse := by
    have hcode : m.code = respcodeOk := by
      rw [hex.code, hex.ret, if_pos hans]
      rfl
    have htran : m.tranCode = [0x54, 0x4f, 0x55, 0x50, 0x50, 0x45, 0x52] := by
      rw [hex.tranCode, hex.asks.tranCode, hstr]
      decide
    have hdata : m.data = [0x41] := by
      rw [hex.data, hex.responseBuf, hreply]
    rw [Message.text, hcode, htran, hdata]
    rfl
  have hsample : sampleRun =
      parseReceived CommSvrSocket.shipped recvMsg (.returning 0 1 [0x41])
        [.accepted m.text.length] := by
    rw [htext]
    exact hrun _ _
  have hresponds : sampleRun.Responds resp m := by
    rw [hsample, htext]
    exact hex.responds
  rcases parseReceived_atOnce (by rw [htext]; decide) (hsample ▸ hresponds) with ⟨hsent, hret⟩
  refine ⟨?_, ?_, resp, hresponds.response, hresponds.sendMsg.trans htext⟩
  · rw [hsample, hsent, htext]
  · rw [hsample, hret]

/-- Whatever has been sent already, the timeout branch sends `1$$` after it. -/
theorem timeout_after_anything (cfg : CommSvrSocket) (ret : Int) (wire : List Byte)
    (normal : Option Response) :
    ∃ pc, exec (childStep cfg)
        { pc := .parseReturned ret, armed := true, wire := wire, normal := normal }
        [.sigalrm, .go, .send (.accepted 3)] =
      some { pc := pc, armed := false, wire := wire ++ timeoutMessage.text, normal := normal } := by
  rcases formatTimeout_spec with ⟨resp, hresp, hcarries⟩
  have hlen : resp.sendlen = 3 := hcarries.sendlen
  have hchunk : sendChunk resp.sendMsg.bytes (sendInit resp.sendlen) 3 = timeoutMessage.text := by
    have htake : resp.sendMsg.bytes.take 3 = timeoutMessage.text :=
      (List.prefix_iff_eq_take.1 hcarries.text_prefix).symm
    simp [sendChunk, sendInit, hlen, htake]
  let jumped : Child := { pc := .jumped, armed := false, wire := wire, normal := normal }
  let sending : Child := { jumped with pc := .sendingTimeout resp (sendInit resp.sendlen) }
  let st : SendSt := { left := 0, sended := 3, wire := timeoutMessage.text }
  let sent : Child :=
    { jumped with
      pc := .sendingTimeout resp st
      wire := wire ++ timeoutMessage.text }
  have hgo : childStep cfg jumped .go = some sending := by
    simp [jumped, sending, childStep, hresp]
  have hround : sendRound resp.sendMsg.bytes (sendInit resp.sendlen) (.accepted 3) = .again st := by
    simp only [sendRound, hchunk]
    simp [sendInit, hlen, st, timeoutMessage, Message.text, respcodeTimeout]
  have hsend : childStep cfg sending (.send (.accepted 3)) = some sent := by
    have hleft : (sendInit resp.sendlen).left > 0 := by simp [sendInit, hlen]
    simp [sending, sent, jumped, childStep, sendStep, hleft, hround, sendBytes, hchunk]
  refine ⟨.sendingTimeout resp st, ?_⟩
  calc
    exec (childStep cfg) { pc := .parseReturned ret, armed := true, wire := wire, normal := normal }
        [.sigalrm, .go, .send (.accepted 3)]
        = exec (childStep cfg) jumped [.go, .send (.accepted 3)] := exec_cons rfl
    _ = exec (childStep cfg) sending [.send (.accepted 3)] := exec_cons hgo
    _ = some sent := exec_cons hsend

/-- The alarm strikes between the last `send` of the response and the return of `process_main`: the
client reads `0$TOUPPER$A1$$`. -/
theorem two_responses :
    ¬ ∀ (cfg : CommSvrSocket) (as : List ChildAct) (s : Child),
      Along (childStep cfg) (fun s a => a = .sigalrm → s.pc.inMain = true) Child.init as →
      exec (childStep cfg) Child.init as = some s → s.OneResponse := by
  intro h
  rcases sampleRun_sent with ⟨hsent, hret, resp, hresp, hmsg⟩
  have hparsed : Reaches (childStep CommSvrSocket.shipped) Quiet Child.init
      { pc := .parseReturned eOk, armed := true, wire := sampleResponse, normal := some resp } := by
    have hstart : Reaches (childStep CommSvrSocket.shipped) Quiet Child.init
        { pc := .alarmSet, armed := true, wire := [], normal := none } :=
      ⟨[.localPort true, .go], by simp [Quiet], rfl⟩
    rw [← hsent, ← hresp]
    exact hstart.trans (child_follows_processParse hret true)
  rcases hparsed with ⟨as, has, hrun⟩
  obtain ⟨pc, hlate⟩ :=
    timeout_after_anything CommSvrSocket.shipped eOk sampleResponse (some resp)
  have hC : Along (childStep CommSvrSocket.shipped) (fun s a => a = .sigalrm → s.pc.inMain = true)
      Child.init (as ++ .sigalrm :: [.go, .send (.accepted 3)]) := by
    apply along_interrupted
    · intro s a hquiet halarm
      exact absurd halarm hquiet
    · exact has
    · simp [Quiet]
    · intro t ht _
      have hstate := Option.some.inj (hrun.symm.trans ht)
      exact hstate ▸ rfl
  -- What the client has read is longer than either response.
  rcases h _ _ _ hC ((exec_append hrun).trans hlate) with hpre | ⟨resp', m, hnormal, hcarries, hpre⟩
  · have hlen : (sampleResponse ++ timeoutMessage.text).length ≤ timeoutMessage.text.length :=
      hpre.length_le
    exact absurd hlen (by decide)
  · have hsame : resp = resp' := Option.some.inj hnormal
    have htext : m.text = sampleResponse := by
      rw [← hcarries.sendMsg, ← hsame, hmsg]
    have hlen : (sampleResponse ++ timeoutMessage.text).length ≤ sampleResponse.length := by
      rw [htext] at hpre
      exact hpre.length_le
    exact absurd hlen (by decide)

end CommServer
