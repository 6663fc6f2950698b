import CommServer.LibSrc.BaseSpec
import CommServer.LibSrc.SocketSpec
import CommServer.Protocol.Message
import CommServer.Src.ProcessParse

/-!
# ProcessParseSpec — what each part of `process_parse` computes

* `parseRequest_spec`   : the service name and the data packet taken from a terminated message;
* `parseRequest_none`   : a message without a terminator is read past its array;
* `commTuxTpcall_fail`, `commTuxTpcall_copy` : the two ways out of `comm_tux_tpcall`;
* `formatResponse_spec` : the response message;
* `parseReceived_spec`  : the whole exchange after the reception;
* `Delivered.parsed`    : the exchange for a request that came in whole.
-/

namespace CommServer

open CLib Text Transition Protocol

/-! ## The request -/

/-- What a message asks for: its second component cut at 63 bytes and trimmed, and its third
component cut at 2049 bytes. -/
structure Asks (msg : List Byte) (req : Request) : Prop where
  tranCode : req.tranCode.str = trim isBlank ((field [dollar] msg 1).take 63)
  requestData : req.requestData.str = (field [dollar] msg 2).take desStrLen
  tranTerminated : (0 : Byte) ∈ req.tranCode.bytes
  dataTerminated : (0 : Byte) ∈ req.requestData.bytes

/-- `strncpy` into a zeroed array, and a terminator in its last byte. -/
theorem strncpy_put_spec {k : Nat} {src : List Byte} (hk : 0 < k) (hsrc : (0 : Byte) ∈ src) :
    ∃ b, (strncpy (Buf.zeroed k) src (k - 1)).bind (fun b => b.put (k - 1) 0) = some b ∧
      b.str = (cstr src).take (k - 1) ∧ (0 : Byte) ∈ b.bytes := by
  rcases strncpy_zeroed (k := k) (n := k - 1) (by omega) (Or.inr hsrc) with ⟨b, hb, hstr⟩
  have hlast : k - 1 < k := by omega
  have hlen : ((cstr src).take (k - 1)).length ≤ k - 1 := by
    simp only [List.length_take]
    omega
  have hset : (b.set (k - 1) 0).str = (cstr src).take (k - 1) := str_set_last hstr hlen hlast
  refine ⟨b.set (k - 1) 0, by simp [hb, Buf.put_of_lt _ _ hlast], hset, ?_⟩
  refine Buf.zero_mem_of_length_str_lt ?_
  -- The string leaves the last byte to the terminator.
  rw [hset]
  omega

/-- A field of a terminated message, cut by `des_str` and by the array it is copied to. -/
theorem takeField_spec {k : Nat} (hk : 0 < k) {msg : List Byte} (hmsg : (0 : Byte) ∉ msg)
    (rest : List Byte) (i : Nat) :
    ∃ b, takeField k (msg ++ 0 :: rest) ((i : Int) + 1) = some b ∧
      b.str = ((field [dollar] msg i).take desStrLen).take (k - 1) ∧ (0 : Byte) ∈ b.bytes := by
  have hd : (0 : Byte) ∉ [dollar] := by decide
  rcases getStr_spec (z := []) hd (List.cons_ne_nil _ _) hmsg rest i with ⟨p, hp, hstr, hmem⟩
  rcases strncpy_put_spec hk hmem with ⟨b, hb, hbstr, hbmem⟩
  have hp' : getStr (msg ++ 0 :: rest) ((i : Int) + 1) dlmtDollar = some p := hp
  refine ⟨b, ?_, ?_, hbmem⟩
  · simpa [takeField, hp'] using hb
  · rw [hbstr, ← hstr]
    rfl

/-- What `des_str` holds always fits `request_data`. -/
theorem take_desStrLen_take (s : List Byte) :
    (s.take desStrLen).take (maxbufLen - 1) = s.take desStrLen := by
  have hcap : desStrLen = 2049 := rfl
  have hmax : maxbufLen = 10240 := rfl
  refine List.take_of_length_le ?_
  simp only [List.length_take]
  omega

/-- `process_parse` takes the fields out of every terminated message. -/
theorem parseRequest_spec {recvMsg : Buf maxbufLen} (h : (0 : Byte) ∈ recvMsg.bytes) :
    ∃ req, parseRequest recvMsg = some req ∧ Asks recvMsg.str req := by
  rcases eq_cstr_append_zero h with ⟨rest, hrest⟩
  have hmsg : (0 : Byte) ∉ recvMsg.str := recvMsg.zero_not_mem_str
  have hbytes : recvMsg.bytes = recvMsg.str ++ 0 :: rest := hrest
  rcases takeField_spec (k := 64) (by omega) hmsg rest 1 with ⟨t, ht, htstr, htmem⟩
  rcases takeField_spec (k := maxbufLen) (by decide) hmsg rest 2 with ⟨q, hq, hqstr, hqmem⟩
  rcases trims_spec t htmem with ⟨t', ht', htmem', htstr'⟩
  rw [← hbytes] at ht hq
  refine ⟨{ tranCode := t', requestData := q }, ?_, ?_, ?_, htmem', hqmem⟩
  · have ht₁ : takeField 64 recvMsg.bytes 2 = some t := ht
    have hq₁ : takeField maxbufLen recvMsg.bytes 3 = some q := hq
    simp only [parseRequest, strlen_of_mem h, ht₁, hq₁, Option.bind_eq_bind, Option.bind_some]
    rw [← Option.bind_assoc, ht']
    rfl
  · -- The 63 bytes of `tran_code` are fewer than the 2049 of `des_str`.
    rw [htstr', htstr, List.take_take]
    rfl
  · rw [hqstr]
    exact take_desStrLen_take _

/-- Without a terminator the first look at the message leaves its array. -/
theorem parseRequest_none {recvMsg : Buf maxbufLen} (h : (0 : Byte) ∉ recvMsg.bytes) :
    parseRequest recvMsg = none := by
  simp [parseRequest, strlen_eq, h]

/-- Whatever the fields were taken from was a terminated message. -/
theorem asks_of_parseRequest {recvMsg : Buf maxbufLen} {req : Request}
    (h : parseRequest recvMsg = some req) : Asks recvMsg.str req := by
  have hterm : (0 : Byte) ∈ recvMsg.bytes := by
    by_contra hmem
    rw [parseRequest_none hmem] at h
    cases h
  rcases parseRequest_spec hterm with ⟨req', hreq', hasks⟩
  have hsame : req' = req := Option.some.inj (hreq'.symm.trans h)
  exact hsame ▸ hasks

/-- A service name never contains the separator, is shorter than its array, and is a C string. -/
theorem Asks.tranCode_facts {msg : List Byte} {req : Request} (h : Asks msg req) :
    dollar ∉ req.tranCode.str ∧ req.tranCode.str.length ≤ 63 := by
  have hsub : ∀ c ∈ req.tranCode.str, c ∈ (field [dollar] msg 1).take 63 := by
    -- Trims and cuts only remove bytes from the field.
    intro c hc
    rw [h.tranCode] at hc
    exact (List.dropWhile_sublist _).subset ((List.rdropWhile_prefix _ _).subset hc)
  constructor
  · intro hmem
    exact not_mem_field msg 1 (List.mem_of_mem_take (hsub _ hmem))
  · have hlen := Buf.length_str_lt h.tranTerminated
    omega

/-! ## The Tuxedo call -/

/-- `tpcall` is reached: `tpinit` and both `tpalloc` succeeded. -/
def TuxOutcome.Reached (o : TuxOutcome) : Prop :=
  o.tpinit ≠ eFail ∧ o.sendbuf = true ∧ o.recvbuf = true

instance (o : TuxOutcome) : Decidable o.Reached := by
  unfold TuxOutcome.Reached
  infer_instance

/-- `recvlen` passes the one check made of it. -/
def TuxOutcome.Fits (o : TuxOutcome) : Prop :=
  o.recvlen.toInt ≤ (maxbufLen : Int) - 100

instance (o : TuxOutcome) : Decidable o.Fits := by
  unfold TuxOutcome.Fits
  infer_instance

section TuxCall

variable (servicename envstr : List Byte) (responseBuf : Buf maxbufLen) {requestBuf : List Byte}
  {o : TuxOutcome}

/-- Every failure that `comm_tux_tpcall` reports leaves the response buffer alone. -/
theorem commTuxTpcall_fail (h : (0 : Byte) ∈ requestBuf) (hout : ¬ (o.Reached ∧ o.Fits)) :
    ∃ calls, commTuxTpcall servicename requestBuf responseBuf envstr o =
      some { ret := eFail, responseBuf := responseBuf, calls := calls } := by
  have hlen := strlen_of_mem h
  let opened : List TpEvent :=
    [.tuxputenv envstr, .tpinit, .tpallocSend ((cstr requestBuf).length + 1)]
  -- One case for each call that can fail, and one for the length check.
  by_cases hinit : o.tpinit = eFail
  · exact ⟨[.tuxputenv envstr, .tpinit], by simp [commTuxTpcall, hinit]⟩
  cases hsend : o.sendbuf with
  | false => exact ⟨opened ++ [.tpterm], by simp [commTuxTpcall, hinit, hlen, hsend, opened]⟩
  | true =>
      cases hrecv : o.recvbuf with
      | false =>
          exact ⟨opened ++ [.tpallocRecv maxbufLen, .tpfreeSend, .tpterm], by
            simp [commTuxTpcall, hinit, hlen, hsend, hrecv, opened]⟩
      | true =>
          have hfits : ¬ o.recvlen.toInt ≤ (maxbufLen : Int) - 100 :=
            fun hle => hout ⟨⟨hinit, hsend, hrecv⟩, hle⟩
          have hlong : o.recvlen.toInt > (maxbufLen : Int) - 100 := by omega
          exact ⟨opened ++ [.tpallocRecv maxbufLen, .tpcall (cstr servicename) (cstr requestBuf),
            .tpfreeRecv, .tpfreeSend, .tpterm], by
            simp only [commTuxTpcall, hinit, hlen, hsend, hrecv, hlong, opened]
            rfl⟩

/-- Once `tpcall` was made, only `recvlen` decides: the reply is copied whatever `tpcall`
returned. -/
theorem commTuxTpcall_copy (h : (0 : Byte) ∈ requestBuf) (hreach : o.Reached) (hfits : o.Fits) :
    ∃ calls, commTuxTpcall servicename requestBuf responseBuf envstr o =
      (strncpy responseBuf o.reply.bytes o.recvlen.toUInt64.toNat).map fun b =>
        { ret := eOk, responseBuf := b, calls := calls } := by
  rcases hreach with ⟨hinit, hsend, hrecv⟩
  have hlen := strlen_of_mem h
  have hfits' : o.recvlen.toInt ≤ (maxbufLen : Int) - 100 := hfits
  have hshort : ¬ o.recvlen.toInt > (maxbufLen : Int) - 100 := by omega
  refine ⟨[.tuxputenv envstr, .tpinit, .tpallocSend ((cstr requestBuf).length + 1),
    .tpallocRecv maxbufLen, .tpcall (cstr servicename) (cstr requestBuf), .tpfreeRecv,
    .tpfreeSend, .tpterm], ?_⟩
  simp only [commTuxTpcall, hinit, hlen, hsend, hrecv, hshort]
  cases strncpy responseBuf o.reply.bytes o.recvlen.toUInt64.toNat <;> rfl

end TuxCall

/-- The `size_t` that a `long` becomes. -/
theorem toNat_toUInt64_eq (x : Int64) :
    (x.toUInt64.toNat : Int) = if 0 ≤ x.toInt then x.toInt else x.toInt + 2 ^ 64 := by
  have hnat : x.toUInt64.toNat = x.toBitVec.toNat := rfl
  have hint : x.toInt = x.toBitVec.toInt := rfl
  have hcond := BitVec.toInt_eq_toNat_cond x.toBitVec
  have hlt := x.toBitVec.isLt
  -- Both readings of 64 bits, against each other.
  rw [hnat, hint, hcond]
  split <;> split <;> omega

/-- Copying `recvlen` bytes of the reply into the zeroed response array: the string, cut there. -/
theorem strncpy_reply {o : TuxOutcome} (hfits : o.Fits) (hpos : 0 ≤ o.recvlen.toInt) :
    ∃ b, strncpy (Buf.zeroed maxbufLen) o.reply.bytes o.recvlen.toUInt64.toNat = some b ∧
      b.str = o.reply.str.take o.recvlen.toInt.toNat := by
  have hconv := toNat_toUInt64_eq o.recvlen
  rw [if_pos hpos] at hconv
  have hnat : o.recvlen.toUInt64.toNat = o.recvlen.toInt.toNat := by omega
  have hfits' : o.recvlen.toInt ≤ (maxbufLen : Int) - 100 := hfits
  have hmax : maxbufLen = 10240 := rfl
  have hsize := o.reply.size
  rw [hnat]
  exact strncpy_zeroed (by omega) (Or.inl (by omega))

/-- A negative `recvlen` is a copy far beyond the response array. -/
theorem strncpy_reply_negative {o : TuxOutcome} (hneg : o.recvlen.toInt < 0) :
    strncpy (Buf.zeroed maxbufLen) o.reply.bytes o.recvlen.toUInt64.toNat = none := by
  have hconv := toNat_toUInt64_eq o.recvlen
  have hnonneg : ¬ 0 ≤ o.recvlen.toInt := by omega
  rw [if_neg hnonneg] at hconv
  -- As a `size_t` it is `2^63` at least.
  have hmin : -(2 : Int) ^ 63 ≤ o.recvlen.toInt := Int64.minValue_le_toInt o.recvlen
  have hmax : maxbufLen = 10240 := rfl
  rw [strncpy_eq_none_iff]
  left
  omega

/-! ## The response -/

theorem storeRespCode_spec {code : List Byte} (hcode : (0 : Byte) ∉ code) (hlen : code.length ≤ 15) :
    ∃ b, storeRespCode code = some b ∧ b.str = code := by
  have hmem : (0 : Byte) ∈ code ++ [0] := by simp
  rcases strncpy_put_spec (k := 16) (by omega) hmem with ⟨b, hb, hstr, -⟩
  refine ⟨b, hb, ?_⟩
  rw [hstr, cstr_append_zero hcode, List.take_of_length_le hlen]

theorem respCodeOf_clean (ret : Int) :
    (0 : Byte) ∉ respCodeOf ret ∧ dollar ∉ respCodeOf ret ∧ (respCodeOf ret).length = 1 := by
  unfold respCodeOf
  split <;> decide

/-- The slack that `comm_tux_tpcall` leaves is enough for the code, the separators and the longest
service name: no response is cut. -/
theorem formatResponse_spec (ret : Int) {tranCode : Buf 64} {responseData : Buf maxbufLen}
    (htran : tranCode.str.length ≤ 63) (hdata : responseData.str.length ≤ maxbufLen - 100) :
    ∃ resp, formatResponse ret tranCode responseData = some resp ∧
      resp.respCode.str = respCodeOf ret ∧
      resp.sendMsg.str = responseText (respCodeOf ret) tranCode.str responseData.str ∧
      resp.sendlen = resp.sendMsg.str.length := by
  have hmax : maxbufLen = 10240 := rfl
  rcases respCodeOf_clean ret with ⟨hcode, -, hone⟩
  rcases storeRespCode_spec hcode (by omega) with ⟨b, hb, hstr⟩
  let text := responseText (respCodeOf ret) tranCode.str responseData.str
  have hlen : text.length < maxbufLen := by
    simp only [text, responseText, List.length_append, List.length_cons]
    omega
  have hdollar : (0 : Byte) ≠ dollar := by decide
  have hfree : (0 : Byte) ∉ text := by
    simp [text, responseText, hcode, Buf.zero_not_mem_str, hdollar]
  have hmsg := snprintf_str_of_lt (Buf.zeroed maxbufLen) hlen hfree
  have hterm : (0 : Byte) ∈ (snprintf (Buf.zeroed maxbufLen) text).bytes := by
    apply Buf.zero_mem_of_length_str_lt
    rw [hmsg]
    exact hlen
  have hread : strlen responseData.bytes = some responseData.str.length :=
    strlen_of_mem (Buf.zero_mem_of_length_str_lt (by omega))
  refine ⟨{ respCode := b, sendMsg := snprintf (Buf.zeroed maxbufLen) text, sendlen := text.length },
    ?_, hstr, hmsg, ?_⟩
  · have hsendlen : strlen (snprintf (Buf.zeroed maxbufLen) text).bytes = some text.length := by
      rw [strlen_of_mem hterm]
      exact congrArg some (congrArg List.length hmsg)
    have htext : responseText b.str tranCode.str responseData.str = text := by rw [hstr]
    simp [formatResponse, hread, hb, htext, hsendlen]
  · exact (congrArg List.length hmsg).symm

/-- A run has formed the response `m`, with its length, and sent nothing but a prefix of it. -/
structure ParseRun.Responds (run : ParseRun) (resp : Response) (m : Message) : Prop where
  response : run.response = some resp
  respCode : resp.respCode.str = m.code
  sendMsg : resp.sendMsg.str = m.text
  sendlen : resp.sendlen = m.text.length
  sent : run.sent <+: m.text

theorem sendResponse_responds {run : ParseRun} {resp : Response} {m : Message}
    (hcode : resp.respCode.str = m.code) (hmsg : resp.sendMsg.str = m.text)
    (hlen : resp.sendlen = m.text.length) (tx : List SendResult) :
    (sendResponse run resp tx).Responds resp m := by
  refine ⟨rfl, hcode, hmsg, hlen, ?_⟩
  have hpre : m.text <+: resp.sendMsg.bytes := by
    rw [← hmsg]
    exact cstr_prefix _
  have hsend := (sendNbytes_spec hpre.length_le tx).1
  show (sendNbytes resp.sendMsg.bytes resp.sendlen tx).1.wire <+: m.text
  rw [hlen]
  exact hsend.wire_prefix hpre

/-! ## The exchange -/

/-- `comm_tux_tpcall` returns `E_OK`: `tpcall` was made and `recvlen` was not too long. -/
def TuxOutcome.Answered (o : TuxOutcome) : Prop :=
  o.Reached ∧ o.Fits

instance (o : TuxOutcome) : Decidable o.Answered := by
  unfold TuxOutcome.Answered
  infer_instance

/-- The response data that an outcome of the Tuxedo calls gets. -/
def TuxOutcome.answerData (o : TuxOutcome) : List Byte :=
  if o.Answered then o.reply.str.take o.recvlen.toInt.toNat else []

/-- Response data always leaves the slack that `comm_tux_tpcall` checks for. -/
theorem length_answerData_le (o : TuxOutcome) : o.answerData.length ≤ maxbufLen - 100 := by
  have hmax : maxbufLen = 10240 := rfl
  by_cases hans : o.Answered
  · have hfits : o.recvlen.toInt ≤ (maxbufLen : Int) - 100 := hans.2
    simp only [TuxOutcome.answerData, hans, if_true, List.length_take]
    omega
  · simp [TuxOutcome.answerData, hans]

/-- Whenever `comm_tux_tpcall` returns, its outcome decides what it returns and leaves. -/
theorem commTuxTpcall_some {servicename requestBuf envstr : List Byte} {o : TuxOutcome} {t : TuxRun}
    (h : (0 : Byte) ∈ requestBuf)
    (hcall : commTuxTpcall servicename requestBuf (Buf.zeroed maxbufLen) envstr o = some t) :
    t.ret = (if o.Answered then eOk else eFail) ∧ t.responseBuf.str = o.answerData := by
  by_cases hans : o.Answered
  · obtain ⟨calls, hcopy⟩ :=
      commTuxTpcall_copy servicename envstr (Buf.zeroed maxbufLen) h hans.1 hans.2
    -- It has returned, so the copy stayed inside `response_data`.
    have hpos : 0 ≤ o.recvlen.toInt := by
      by_contra hneg
      rw [hcopy, strncpy_reply_negative (by omega)] at hcall
      cases hcall
    rcases strncpy_reply hans.2 hpos with ⟨b, hb, hbstr⟩
    rw [hcopy, hb] at hcall
    rw [← Option.some.inj hcall]
    simp [hans, TuxOutcome.answerData, hbstr]
  · obtain ⟨calls, hfail⟩ :=
      commTuxTpcall_fail servicename envstr (Buf.zeroed maxbufLen) h hans
    rw [hfail] at hcall
    rw [← Option.some.inj hcall]
    simp [hans, TuxOutcome.answerData]

/-- `comm_tux_tpcall` returns unless `recvlen` is a negative size. -/
theorem commTuxTpcall_returns (servicename envstr : List Byte) {requestBuf : List Byte}
    {o : TuxOutcome} (h : (0 : Byte) ∈ requestBuf) (hpos : o.Answered → 0 ≤ o.recvlen.toInt) :
    ∃ t, commTuxTpcall servicename requestBuf (Buf.zeroed maxbufLen) envstr o = some t := by
  by_cases hout : o.Answered
  · obtain ⟨calls, hcall⟩ :=
      commTuxTpcall_copy servicename envstr (Buf.zeroed maxbufLen) h hout.1 hout.2
    rcases strncpy_reply hout.2 (hpos hout) with ⟨b, hb, -⟩
    rw [hb] at hcall
    exact ⟨_, hcall⟩
  · obtain ⟨calls, hcall⟩ :=
      commTuxTpcall_fail servicename envstr (Buf.zeroed maxbufLen) h hout
    exact ⟨_, hcall⟩

/-- A run that went through: the message was parsed to `req`, the Tuxedo calls ended as `t`, and the
response `m` was formed from both. -/
structure ParseRun.Exchanged (run : ParseRun) (msg : List Byte) (o : TuxOutcome) (req : Request)
    (t : TuxRun) (resp : Response) (m : Message) : Prop where
  request : run.request = some req
  asks : Asks msg req
  tux : run.tux = some t
  ret : t.ret = if o.Answered then eOk else eFail
  responseBuf : t.responseBuf.str = o.answerData
  responds : run.Responds resp m
  code : m.code = respCodeOf t.ret
  tranCode : m.tranCode = req.tranCode.str
  data : m.data = t.responseBuf.str

/-- Whatever follows, the arguments of `comm_tux_tpcall` are those taken from the message. -/
theorem exchange_request (parse : Buf maxbufLen → Option Request)
    (format : Int → Buf 64 → Buf maxbufLen → Option Response) (cfg : CommSvrSocket)
    (recvMsg : Buf maxbufLen) (o : TuxOutcome) (tx : List SendResult) :
    (exchange parse format cfg recvMsg o tx).request = parse recvMsg := by
  cases hreq : parse recvMsg with
  | none => simp [exchange, hreq, ParseRun.idle]
  | some req =>
      cases hcall : commTuxTpcall req.tranCode.bytes req.requestData.bytes (Buf.zeroed maxbufLen)
          cfg.tuxEnvstr.bytes o with
      | none => simp [exchange, hreq, hcall]
      | some t =>
          cases hresp : format t.ret req.tranCode t.responseBuf with
          | none => simp [exchange, hreq, hcall, hresp]
          | some resp => simp [exchange, hreq, hcall, hresp, sendResponse]

theorem parseReceived_request (cfg : CommSvrSocket) (recvMsg : Buf maxbufLen) (o : TuxOutcome)
    (tx : List SendResult) : (parseReceived cfg recvMsg o tx).request = parseRequest recvMsg :=
  exchange_request parseRequest formatResponse cfg recvMsg o tx

/-- From the return of `comm_tux_tpcall` on, the response is settled. -/
theorem parseReceived_exchanged {cfg : CommSvrSocket} {recvMsg : Buf maxbufLen} {o : TuxOutcome}
    {req : Request} {t : TuxRun} (hreq : parseRequest recvMsg = some req)
    (hasks : Asks recvMsg.str req)
    (hcall : commTuxTpcall req.tranCode.bytes req.requestData.bytes (Buf.zeroed maxbufLen)
      cfg.tuxEnvstr.bytes o = some t) (tx : List SendResult) :
    ∃ resp m, (parseReceived cfg recvMsg o tx).Exchanged recvMsg.str o req t resp m := by
  rcases commTuxTpcall_some hasks.dataTerminated hcall with ⟨hret, hbuf⟩
  rcases hasks.tranCode_facts with ⟨hdollar, htran⟩
  obtain ⟨resp, hresp, hcode, hmsg, hlen⟩ :=
    formatResponse_spec t.ret htran (hbuf ▸ length_answerData_le o)
  let m : Message :=
    { code := respCodeOf t.ret
      tranCode := req.tranCode.str
      data := t.responseBuf.str
      code_free := (respCodeOf_clean t.ret).2.1
      tranCode_free := hdollar }
  have hmsg' : resp.sendMsg.str = m.text := hmsg
  have hrun : parseReceived cfg recvMsg o tx =
      sendResponse { ParseRun.idle with request := some req, tux := some t } resp tx := by
    simp [parseReceived, exchange, hreq, hcall, hresp]
  rw [hrun]
  exact ⟨resp, m, rfl, hasks, rfl, hret, hbuf,
    sendResponse_responds hcode hmsg' (by rw [hlen, hmsg']) tx, rfl, rfl, rfl⟩

/-- `process_parse` on a terminated message, when `recvlen` is not a negative size. -/
theorem parseReceived_spec (cfg : CommSvrSocket) {recvMsg : Buf maxbufLen} {o : TuxOutcome}
    (tx : List SendResult) (h : (0 : Byte) ∈ recvMsg.bytes)
    (hpos : o.Answered → 0 ≤ o.recvlen.toInt) :
    ∃ req t resp m, (parseReceived cfg recvMsg o tx).Exchanged recvMsg.str o req t resp m := by
  rcases parseRequest_spec h with ⟨req, hreq, hasks⟩
  obtain ⟨t, hcall⟩ :=
    commTuxTpcall_returns req.tranCode.bytes cfg.tuxEnvstr.bytes hasks.dataTerminated hpos
  exact ⟨req, t, parseReceived_exchanged hreq hasks hcall tx⟩

/-- A negative `recvlen` ends the exchange in the copy: `comm_tux_tpcall` does not return. -/
theorem parseReceived_stuck (cfg : CommSvrSocket) (recvMsg : Buf maxbufLen) {o : TuxOutcome}
    (tx : List SendResult) (hreach : o.Reached) (hneg : o.recvlen.toInt < 0) :
    (parseReceived cfg recvMsg o tx).tux = none ∧
      (parseReceived cfg recvMsg o tx).response = none := by
  cases hreq : parseRequest recvMsg with
  | none => simp [parseReceived, exchange, hreq, ParseRun.idle]
  | some req =>
      -- The fields were taken, so there was a terminator.
      have hterm : (0 : Byte) ∈ recvMsg.bytes := by
        by_contra hmem
        simp [parseRequest_none hmem] at hreq
      rcases parseRequest_spec hterm with ⟨req', hreq', hasks⟩
      have heq : req = req' := Option.some.inj (hreq.symm.trans hreq')
      have hfits : o.Fits := by
        have hmax : maxbufLen = 10240 := rfl
        unfold TuxOutcome.Fits
        omega
      obtain ⟨calls, hcall⟩ := commTuxTpcall_copy req.tranCode.bytes cfg.tuxEnvstr.bytes
        (Buf.zeroed maxbufLen) (heq ▸ hasks.dataTerminated) hreach hfits
      rw [strncpy_reply_negative hneg] at hcall
      simp [parseReceived, exchange, hreq, hcall, ParseRun.idle]

/-! ## The whole function -/

/-- `comm_tux_tpcall` is called only when `recv_nbytes` has returned, with a message that holds a
terminator. -/
theorem processParse_called {cfg : CommSvrSocket} {rx : Reception} {o : TuxOutcome}
    {tx : List SendResult} {req : Request} (h : (processParse cfg rx o tx).request = some req) :
    (∃ v, (receive cfg rx).2 = some (.ret v)) ∧
      (0 : Byte) ∈ (receive cfg rx).1.buf.bytes ∧
      processParse cfg rx o tx = parseReceived cfg (receive cfg rx).1.buf o tx := by
  cases hend : (receive cfg rx).2 with
  | none => simp [processParse, hend, ParseRun.idle] at h
  | some fin =>
      cases fin with
      | fault => simp [processParse, hend, ParseRun.idle] at h
      | ret v =>
          have hrun : processParse cfg rx o tx = parseReceived cfg (receive cfg rx).1.buf o tx := by
            simp [processParse, hend]
          refine ⟨⟨v, rfl⟩, ?_, hrun⟩
          by_contra hmem
          rw [hrun, parseReceived_request, parseRequest_none hmem] at h
          cases h

/-- A response is formed from what was parsed and what Tuxedo has answered. -/
theorem exchange_formed {parse : Buf maxbufLen → Option Request}
    {format : Int → Buf 64 → Buf maxbufLen → Option Response} {cfg : CommSvrSocket}
    {recvMsg : Buf maxbufLen} {o : TuxOutcome} {tx : List SendResult} {resp : Response}
    (h : (exchange parse format cfg recvMsg o tx).response = some resp) :
    ∃ req t, parse recvMsg = some req ∧
      commTuxTpcall req.tranCode.bytes req.requestData.bytes (Buf.zeroed maxbufLen)
        cfg.tuxEnvstr.bytes o = some t ∧
      format t.ret req.tranCode t.responseBuf = some resp := by
  cases hreq : parse recvMsg with
  | none => simp [exchange, hreq, ParseRun.idle] at h
  | some req =>
      cases hcall : commTuxTpcall req.tranCode.bytes req.requestData.bytes (Buf.zeroed maxbufLen)
          cfg.tuxEnvstr.bytes o with
      | none => simp [exchange, hreq, hcall, ParseRun.idle] at h
      | some t =>
          cases hresp : format t.ret req.tranCode t.responseBuf with
          | none => simp [exchange, hreq, hcall, hresp, ParseRun.idle] at h
          | some resp' =>
              have hsame : resp' = resp := by
                simpa [exchange, hreq, hcall, hresp, sendResponse] using h
              exact ⟨req, t, rfl, hcall, hsame ▸ hresp⟩

/-- Once there is a response, the rest is `send_nbytes`. -/
theorem exchange_response {parse : Buf maxbufLen → Option Request}
    {format : Int → Buf 64 → Buf maxbufLen → Option Response} {cfg : CommSvrSocket}
    {recvMsg : Buf maxbufLen} {o : TuxOutcome} {tx : List SendResult} {resp : Response}
    (h : (exchange parse format cfg recvMsg o tx).response = some resp) :
    ∃ run, exchange parse format cfg recvMsg o tx = sendResponse run resp tx := by
  rcases exchange_formed h with ⟨req, t, hreq, hcall, hresp⟩
  refine ⟨{ ParseRun.idle with request := some req, tux := some t }, ?_⟩
  simp [exchange, hreq, hcall, hresp]

/-- A response that the connection accepts at once goes out whole. -/
theorem parseReceived_atOnce {cfg : CommSvrSocket} {recvMsg : Buf maxbufLen} {o : TuxOutcome}
    {resp : Response} {m : Message} (hpos : 0 < m.text.length)
    (h : (parseReceived cfg recvMsg o [.accepted m.text.length]).Responds resp m) :
    (parseReceived cfg recvMsg o [.accepted m.text.length]).sent = m.text ∧
      (parseReceived cfg recvMsg o [.accepted m.text.length]).ret = some eOk := by
  rcases exchange_response h.response with ⟨run, hrun⟩
  have hpre : m.text <+: resp.sendMsg.bytes := by
    rw [← h.sendMsg]
    exact cstr_prefix _
  have hsend := sendNbytes_atOnce hpos hpre.length_le
  have hrun' : parseReceived cfg recvMsg o [.accepted m.text.length] =
      sendResponse run resp [.accepted m.text.length] := hrun
  rw [hrun']
  simp only [sendResponse, h.sendlen, hsend]
  refine ⟨?_, by simp⟩
  exact (List.prefix_iff_eq_take.1 hpre).symm

/-! ## Requests received in full -/

/-- The peer sends `msg` and nothing else, and `recv_nbytes` ends after all of it. -/
structure Delivered (cfg : CommSvrSocket) (rx : Reception) (msg : List Byte) : Prop where
  stream : rx.stream = msg
  readed : (receive cfg rx).1.readed = msg.length
  ended : ∃ v, (receive cfg rx).2 = some (.ret v)

/-- A short message that came in whole is the string in `recv_msg`, and it is what is parsed. -/
theorem Delivered.parsed {cfg : CommSvrSocket} {rx : Reception} {msg : List Byte}
    (h : Delivered cfg rx msg) (hmsg : (0 : Byte) ∉ msg) (hlen : msg.length < maxbufLen) :
    ∃ recvMsg : Buf maxbufLen, recvMsg.str = msg ∧ (0 : Byte) ∈ recvMsg.bytes ∧
      ∀ o tx, processParse cfg rx o tx = parseReceived cfg recvMsg o tx := by
  have hinv := (recvNbytes_spec (Buf.zeroed maxbufLen) (Nat.le_refl _)
    (cfg.waterTimeout.tdiv 10) rx).1
  rcases h.ended with ⟨v, hv⟩
  obtain ⟨j, hj⟩ : ∃ j, maxbufLen - msg.length = j + 1 := ⟨maxbufLen - msg.length - 1, by omega⟩
  have hbytes : (receive cfg rx).1.buf.bytes = msg ++ 0 :: List.replicate j 0 := by
    calc
      (receive cfg rx).1.buf.bytes
          = rx.stream.take (receive cfg rx).1.readed ++
              (Buf.zeroed maxbufLen).bytes.drop (receive cfg rx).1.readed := hinv.bytes
      _ = msg ++ List.replicate (maxbufLen - msg.length) 0 := by
            rw [h.stream, h.readed, List.take_length, Buf.bytes_zeroed, List.drop_replicate]
      _ = msg ++ 0 :: List.replicate j 0 := by rw [hj, List.replicate_succ]
  refine ⟨(receive cfg rx).1.buf, Buf.str_of_bytes hmsg _ hbytes, by simp [hbytes], ?_⟩
  intro o tx
  simp [processParse, hv]

/-- Such a request is parsed, and Tuxedo is called. -/
theorem Delivered.called {cfg : CommSvrSocket} {rx : Reception} {msg : List Byte}
    (h : Delivered cfg rx msg) (hmsg : (0 : Byte) ∉ msg) (hlen : msg.length < maxbufLen)
    (o : TuxOutcome) (tx : List SendResult) :
    ∃ req, (processParse cfg rx o tx).request = some req ∧ Asks msg req := by
  rcases h.parsed hmsg hlen with ⟨recvMsg, hstr, hterm, hrun⟩
  rcases parseRequest_spec hterm with ⟨req, hreq, hasks⟩
  refine ⟨req, ?_, hstr ▸ hasks⟩
  rw [hrun o tx, parseReceived_request, hreq]

/-- The round that takes all of `msg`. -/
def ReadRound.whole (msg : List Byte) : ReadRound :=
  { polls := [.event true (.value msg.length)]
    recv := .data msg.length }

/-- The round in which nothing more comes. -/
def ReadRound.silent : ReadRound :=
  { polls := [.expired]
    recv := .failed .clear }

/-- A peer that sends `msg` at once and then keeps the connection open and silent. -/
def Reception.atOnce (msg : List Byte) : Reception :=
  { errno := .clear
    rcvbuf := .value 87380
    stream := msg
    rounds := [.whole msg, .silent] }

/-- Its first round brings as much of the message as there is room for. -/
theorem recvRound_whole (tmot : Int) {msg : List Byte} (hpos : 0 < msg.length) :
    ∃ s, recvRound tmot 87380
        (recvInit (Buf.zeroed maxbufLen) maxbufLen (Reception.atOnce msg)) (.whole msg) = .again s ∧
      RecvInv (Buf.zeroed maxbufLen) maxbufLen msg s ∧ s.errno = .clear ∧
      s.readed = min msg.length maxbufLen := by
  -- The receive buffer is larger than the array, so one `recv` takes what the array has room for.
  let s₀ : RecvSt maxbufLen := recvInit (Buf.zeroed maxbufLen) maxbufLen (Reception.atOnce msg)
  have hmax : maxbufLen = 10240 := rfl
  have hchunk : (s₀.chunk 87380 msg.length).length = min msg.length maxbufLen := by
    simp only [s₀, RecvSt.chunk, recvInit, Reception.atOnce, List.length_take]
    omega
  have hpoll : bclSockisreadable tmot s₀.errno (ReadRound.whole msg).polls =
      some (.readable, .clear) := by
    have hread : ¬ bclBytesreadable (.value (msg.length : Int)) ≤ 0 := by
      simp only [bclBytesreadable]
      omega
    simp [s₀, recvInit, Reception.atOnce, ReadRound.whole, bclSockisreadable, hread]
  obtain ⟨s, hmore, hinv, herrno, hreaded⟩ :=
    (recvInit_inv (Buf.zeroed maxbufLen) maxbufLen (Reception.atOnce msg)).more 87380
      (Nat.le_refl _) (n := msg.length) (by rw [hchunk]; omega) .clear
  refine ⟨s, (recvRound_readable 87380 hpoll).trans hmore, hinv, herrno, ?_⟩
  rw [hreaded, hchunk]
  exact Nat.zero_add _

theorem receive_atOnce (cfg : CommSvrSocket) {msg : List Byte} (hpos : 0 < msg.length) :
    ∃ s, receive cfg (Reception.atOnce msg) =
        (recvLoop (cfg.waterTimeout.tdiv 10) 87380).run s [.silent] ∧
      RecvInv (Buf.zeroed maxbufLen) maxbufLen msg s ∧ s.errno = .clear ∧
      s.readed = min msg.length maxbufLen := by
  rcases recvRound_whole (cfg.waterTimeout.tdiv 10) hpos with ⟨s, hfirst, hs⟩
  refine ⟨s, ?_, hs⟩
  let L : EventLoop (RecvSt maxbufLen) ReadRound RecvEnd :=
    recvLoop (cfg.waterTimeout.tdiv 10) 87380
  calc
    receive cfg (Reception.atOnce msg)
        = L.run (recvInit (Buf.zeroed maxbufLen) maxbufLen (Reception.atOnce msg))
            [.whole msg, .silent] := rfl
    _ = L.run s [.silent] := EventLoop.run_again (L := L) rfl hfirst

/-- A message shorter than the array comes in whole: the next wait expires. -/
theorem delivered_atOnce {cfg : CommSvrSocket} {msg : List Byte} (htmot : 0 ≤ cfg.waterTimeout.tdiv 10)
    (hpos : 0 < msg.length) (hlen : msg.length < maxbufLen) :
    Delivered cfg (Reception.atOnce msg) msg := by
  rcases receive_atOnce cfg hpos with ⟨s, hrest, hinv, herrno, hreaded⟩
  have hcount := hinv.count
  have hexit : (recvLoop (cfg.waterTimeout.tdiv 10) 87380).exit s = none :=
    recvLoop_exit_eq_none_iff.2 (by omega)
  have hsecond : recvRound (cfg.waterTimeout.tdiv 10) 87380 s .silent =
      .done { s with errno := .clear } (.ret s.atEnd) :=
    recvRound_over (Or.inl (by simp [ReadRound.silent, bclSockisreadable, htmot, herrno]))
  have hrun : receive cfg (Reception.atOnce msg) =
      ({ s with errno := .clear }, some (.ret s.atEnd)) :=
    hrest.trans (EventLoop.run_done hexit hsecond)
  refine ⟨rfl, ?_, s.atEnd, by rw [hrun]⟩
  rw [hrun]
  show s.readed = msg.length
  omega

/-- A message that fills the array fills it in one round. -/
theorem receive_atOnce_full (cfg : CommSvrSocket) {msg : List Byte}
    (hlong : maxbufLen ≤ msg.length) :
    (receive cfg (Reception.atOnce msg)).2 = some (.ret maxbufLen) ∧
      (receive cfg (Reception.atOnce msg)).1.buf.bytes = msg.take maxbufLen := by
  have hmax : maxbufLen = 10240 := rfl
  have hpos : 0 < msg.length := by omega
  rcases receive_atOnce cfg hpos with ⟨s, hrest, hinv, -, hreaded⟩
  have hcount := hinv.count
  have hfull : s.readed = maxbufLen := by omega
  have hexit : (recvLoop (cfg.waterTimeout.tdiv 10) 87380).exit s = some (.ret maxbufLen) :=
    recvLoop_exit_eq_some_iff.2 ⟨by omega, by rw [hfull]⟩
  have hrun : receive cfg (Reception.atOnce msg) = (s, some (.ret maxbufLen)) :=
    hrest.trans (EventLoop.run_of_exit hexit)
  rw [hrun]
  refine ⟨rfl, ?_⟩
  rw [hinv.bytes, hfull, List.drop_of_length_le (Buf.zeroed maxbufLen).size.le, List.append_nil]

/-- `9$TOUPPER$asdf1234`, the request of the simulator. -/
def sampleRequest : List Byte :=
  [0x39, 0x24, 0x54, 0x4f, 0x55, 0x50, 0x50, 0x45, 0x52, 0x24, 0x61, 0x73, 0x64, 0x66, 0x31, 0x32,
   0x33, 0x34]

theorem delivered_sampleRequest :
    Delivered CommSvrSocket.shipped (Reception.atOnce sampleRequest) sampleRequest :=
  delivered_atOnce (by decide) (by decide) (by decide)

theorem called_sampleRequest (o : TuxOutcome) (tx : List SendResult) :
    ∃ req, (processParse CommSvrSocket.shipped (Reception.atOnce sampleRequest) o tx).request =
      some req ∧ Asks sampleRequest req :=
  delivered_sampleRequest.called (by decide) (by decide) o tx

end CommServer
