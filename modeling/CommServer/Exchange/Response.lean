import CommServer.Src.ProcessParseSpec

/-!
# Response — what the answer of `process_parse` says

* `response_lossless` : the response is read back as the code, the service name and the reply it was
  formed from;
* `tellsTruth_iff`    : the response code tells whether the transaction succeeded, except after a
  failed `tpcall` that leaves a small value in `recvlen`.
-/

namespace CommServer
namespace Exchange

open CLib Protocol

/-- A run that calls `comm_tux_tpcall` and is not stopped by a negative `recvlen` goes through. -/
theorem exchanged_of_called {cfg : CommSvrSocket} {rx : Reception} {o : TuxOutcome}
    {tx : List SendResult} {req : Request} (hreq : (processParse cfg rx o tx).request = some req)
    (hpos : o.Answered → 0 ≤ o.recvlen.toInt) :
    ∃ msg t resp m, (processParse cfg rx o tx).Exchanged msg o req t resp m := by
  rcases processParse_called hreq with ⟨-, hterm, hrun⟩
  rcases parseReceived_spec cfg tx hterm hpos with ⟨req', t, resp, m, hex⟩
  rw [← hrun] at hex
  have hsame : req' = req := Option.some.inj (hex.request.symm.trans hreq)
  exact ⟨_, t, resp, m, hsame ▸ hex⟩

/-! ## The encoder -/

/-- `tpcall` succeeded with a reply of an honest length. -/
structure Replied (o : TuxOutcome) : Prop where
  reached : o.Reached
  tpcall : 0 ≤ o.tpcall
  recvlen : 0 ≤ o.recvlen.toInt ∧ o.recvlen.toInt ≤ (maxbufLen : Int) - 100
  terminated : (0 : Byte) ∈ o.reply.bytes

/-- The first `min(recvlen, strlen(reply))` bytes of the reply, and nothing after `E_FAIL`. -/
def owedData (o : TuxOutcome) (t : TuxRun) : List Byte :=
  if t.ret = eFail then []
  else o.reply.str.take (min o.recvlen.toInt.toNat o.reply.str.length)

/-- The response holds its three parts whole, and reading it gives them back. -/
structure Lossless (req : Request) (t : TuxRun) (resp : Response) (data : List Byte) : Prop where
  fits : (responseText resp.respCode.str req.tranCode.str t.responseBuf.str).length < maxbufLen
  whole : resp.sendMsg.str = responseText resp.respCode.str req.tranCode.str t.responseBuf.str
  sendlen : resp.sendlen =
    (responseText resp.respCode.str req.tranCode.str t.responseBuf.str).length
  respCode : resp.respCode.str = respCodeOf t.ret
  read : ∃ m, Message.ofText resp.sendMsg.str = some m ∧
    m.code = resp.respCode.str ∧ m.tranCode = req.tranCode.str ∧ m.data = data

/-- A run that goes through forms a lossless response. -/
theorem lossless_of_exchanged {run : ParseRun} {msg : List Byte} {o : TuxOutcome} {req : Request}
    {t : TuxRun} {resp : Response} {m : Message} (h : run.Exchanged msg o req t resp m) :
    Lossless req t resp (owedData o t) := by
  have hcode : resp.respCode.str = respCodeOf t.ret := h.responds.respCode.trans h.code
  have htext : m.text = responseText resp.respCode.str req.tranCode.str t.responseBuf.str := by
    rw [h.responds.respCode, ← h.tranCode, ← h.data]
    rfl
  have hdata : m.data = owedData o t := by
    rw [h.data, h.responseBuf, owedData, TuxOutcome.answerData, h.ret]
    by_cases hans : o.Answered
    · simp [hans, eOk, eFail, List.take_eq_take_iff]
    · simp [hans]
  refine ⟨?_, h.responds.sendMsg.trans htext, ?_, hcode, m, ?_, ?_, h.tranCode, hdata⟩
  · -- 1 byte of code, 2 separators and at most 63 bytes of name, in a slack of 100.
    have hmax : maxbufLen = 10240 := rfl
    have hone := (respCodeOf_clean t.ret).2.2
    have hname := h.asks.tranCode_facts.2
    have hslack := length_answerData_le o
    rw [hcode, h.responseBuf]
    simp only [responseText, List.length_append, List.length_cons]
    omega
  · rw [h.responds.sendlen, htext]
  · rw [h.responds.sendMsg]
    exact Message.ofText_text m
  · exact h.responds.respCode.symm

/-- The response encoder loses nothing, whatever the reply contains: for every request, service name
and reported outcome the message fits, its length is right, and its first two separators delimit the
code, the service name and the data. -/
theorem response_lossless (cfg : CommSvrSocket) (rx : Reception) (o : TuxOutcome)
    (tx : List SendResult) {req : Request}
    (hreq : (processParse cfg rx o tx).request = some req)
    (hout : (∃ t, (processParse cfg rx o tx).tux = some t ∧ t.ret = eFail) ∨ Replied o) :
    ∃ t resp, (processParse cfg rx o tx).tux = some t ∧
      (processParse cfg rx o tx).response = some resp ∧ Lossless req t resp (owedData o t) := by
  have hpos : o.Answered → 0 ≤ o.recvlen.toInt := by
    intro hans
    -- With a negative `recvlen` the function would not have returned `E_FAIL`.
    rcases hout with ⟨t, ht, hret⟩ | hrep
    · by_contra hneg
      rcases processParse_called hreq with ⟨-, -, hrun⟩
      have hstuck := (parseReceived_stuck cfg (receive cfg rx).1.buf tx hans.1 (by omega)).1
      rw [← hrun, ht] at hstuck
      cases hstuck
    · exact hrep.recvlen.1
  rcases exchanged_of_called hreq hpos with ⟨msg, t, resp, m, hex⟩
  exact ⟨t, resp, hex.tux, hex.responds.response, lossless_of_exchanged hex⟩

/-- A reply `A$B` of three bytes to the simulator's request. -/
theorem response_lossless_sample :
    ∃ req t resp,
      (processParse CommSvrSocket.shipped (Reception.atOnce sampleRequest)
        (.returning 0 3 [0x41, 0x24, 0x42]) []).request = some req ∧
      (processParse CommSvrSocket.shipped (Reception.atOnce sampleRequest)
        (.returning 0 3 [0x41, 0x24, 0x42]) []).tux = some t ∧
      (processParse CommSvrSocket.shipped (Reception.atOnce sampleRequest)
        (.returning 0 3 [0x41, 0x24, 0x42]) []).response = some resp ∧
      Lossless req t resp (owedData (.returning 0 3 [0x41, 0x24, 0x42]) t) := by
  rcases called_sampleRequest (.returning 0 3 [0x41, 0x24, 0x42]) [] with ⟨req, hreq, -⟩
  have hreplied : Replied (.returning 0 3 [0x41, 0x24, 0x42]) := by
    refine ⟨⟨by decide, rfl, rfl⟩, by decide, by decide, ?_⟩
    simp [TuxOutcome.returning]
  rcases response_lossless _ _ _ _ hreq (Or.inr hreplied) with ⟨t, resp, ht, hresp, hless⟩
  exact ⟨req, t, resp, hreq, ht, hresp, hless⟩

/-! ## The response code -/

/-- The transaction succeeded, and its reply fits. -/
def Succeeded (o : TuxOutcome) : Prop :=
  o.Reached ∧ 0 ≤ o.tpcall ∧ o.Fits

/-- A response goes out whose code is `"0"` exactly for a transaction that succeeded, and which is an
empty `"2"` for every other. -/
def TellsTruth (run : ParseRun) (o : TuxOutcome) : Prop :=
  ∃ resp m, run.response = some resp ∧ run.sent <+: resp.sendMsg.str ∧
    Message.ofText resp.sendMsg.str = some m ∧
    (m.code = respcodeOk ↔ Succeeded o) ∧
    (¬ Succeeded o → m.code = respcodeTuxedoErr ∧ m.data = [])

/-- `tpcall` fails, and what `recvlen` holds passes for a length. -/
def Mistaken (o : TuxOutcome) : Prop :=
  o.Reached ∧ o.tpcall < 0 ∧ o.Fits

/-- What is read in the response of a run that goes through. -/
theorem read_of_exchanged {run : ParseRun} {msg : List Byte} {o : TuxOutcome} {req : Request}
    {t : TuxRun} {resp : Response} {m : Message} (h : run.Exchanged msg o req t resp m) :
    Message.ofText resp.sendMsg.str = some m ∧ (m.code = respcodeOk ↔ o.Answered) ∧
      (¬ o.Answered → m.code = respcodeTuxedoErr ∧ m.data = []) := by
  have hread : Message.ofText resp.sendMsg.str = some m := by
    rw [h.responds.sendMsg]
    exact Message.ofText_text m
  have hne : respcodeTuxedoErr ≠ respcodeOk := by decide
  by_cases hans : o.Answered
  · have hcode : m.code = respcodeOk := by simp [h.code, h.ret, hans, respCodeOf]
    exact ⟨hread, by simp [hcode, hans], fun hnot => absurd hans hnot⟩
  · have hcode : m.code = respcodeTuxedoErr := by
      simp [h.code, h.ret, hans, respCodeOf, eFail, eOk]
    have hdata : m.data = [] := by simp [h.data, h.responseBuf, TuxOutcome.answerData, hans]
    exact ⟨hread, by simp [hcode, hans, hne], fun _ => ⟨hcode, hdata⟩⟩

/-- After a failed `tpcall` with a small `recvlen` the answer is `"0"`, or there is none. -/
theorem not_tellsTruth_of_mistaken {cfg : CommSvrSocket} {rx : Reception} {o : TuxOutcome}
    {tx : List SendResult} {req : Request} (hreq : (processParse cfg rx o tx).request = some req)
    (h : Mistaken o) : ¬ TellsTruth (processParse cfg rx o tx) o := by
  rcases h with ⟨hreach, hfail, hfits⟩
  rintro ⟨resp, m, hresp, -, hread, hiff, -⟩
  -- Either the failure is reported as a success, or no response is formed.
  by_cases hpos : 0 ≤ o.recvlen.toInt
  · rcases exchanged_of_called hreq fun _ => hpos with ⟨msg, t, resp', m', hex⟩
    rcases read_of_exchanged hex with ⟨hread', hcode, -⟩
    have hsame : resp' = resp := Option.some.inj (hex.responds.response.symm.trans hresp)
    rw [hsame, hread] at hread'
    have hm : m = m' := Option.some.inj hread'
    have hok : m.code = respcodeOk := hm ▸ hcode.2 ⟨hreach, hfits⟩
    have hsucc := (hiff.1 hok).2.1
    omega
  · rcases processParse_called hreq with ⟨-, -, hrun⟩
    have hnone := (parseReceived_stuck cfg (receive cfg rx).1.buf tx hreach (by omega)).2
    rw [← hrun, hresp] at hnone
    cases hnone

theorem tellsTruth_of_not_mistaken {cfg : CommSvrSocket} {rx : Reception} {o : TuxOutcome}
    {tx : List SendResult} {req : Request} (hreq : (processParse cfg rx o tx).request = some req)
    (hlen : o.Reached → 0 ≤ o.tpcall → 0 ≤ o.recvlen.toInt) (h : ¬ Mistaken o) :
    TellsTruth (processParse cfg rx o tx) o := by
  -- Without the mistake `comm_tux_tpcall` returns `E_OK` exactly after a success.
  have hsucc : Succeeded o ↔ o.Answered := by
    constructor
    · rintro ⟨hreach, -, hfits⟩
      exact ⟨hreach, hfits⟩
    · rintro ⟨hreach, hfits⟩
      refine ⟨hreach, ?_, hfits⟩
      by_contra hneg
      exact h ⟨hreach, by omega, hfits⟩
  have hpos : o.Answered → 0 ≤ o.recvlen.toInt := by
    intro hans
    exact hlen hans.1 (hsucc.2 hans).2.1
  rcases exchanged_of_called hreq hpos with ⟨msg, t, resp, m, hex⟩
  rcases read_of_exchanged hex with ⟨hread, hcode, herr⟩
  rw [← hsucc] at hcode herr
  have hsent : (processParse cfg rx o tx).sent <+: resp.sendMsg.str := by
    rw [hex.responds.sendMsg]
    exact hex.responds.sent
  exact ⟨resp, m, hex.responds.response, hsent, hread, hcode, herr⟩

/-- The response code tells the truth exactly when no failed `tpcall` leaves a `recvlen` of at most
`MAXBUF_LEN - 100`. -/
theorem tellsTruth_iff (cfg : CommSvrSocket) (rx : Reception) (o : TuxOutcome)
    (tx : List SendResult) {req : Request}
    (hreq : (processParse cfg rx o tx).request = some req)
    (hlen : o.Reached → 0 ≤ o.tpcall → 0 ≤ o.recvlen.toInt) :
    TellsTruth (processParse cfg rx o tx) o ↔ ¬ Mistaken o := by
  constructor
  · intro htrue hmis
    exact not_tellsTruth_of_mistaken hreq hmis htrue
  · intro h
    exact tellsTruth_of_not_mistaken hreq hlen h

/-- A successful transaction of the simulator, answered in full. -/
theorem tellsTruth_sample :
    (TellsTruth (processParse CommSvrSocket.shipped (Reception.atOnce sampleRequest)
        (.returning 0 1 [0x41]) []) (.returning 0 1 [0x41]) ↔
      ¬ Mistaken (.returning 0 1 [0x41])) := by
  rcases called_sampleRequest (.returning 0 1 [0x41]) [] with ⟨req, hreq, -⟩
  exact tellsTruth_iff _ _ _ _ hreq (fun _ _ => by decide)

/-- `tpcall` returns -1 and leaves a zero in `recvlen`: the client reads a success. -/
theorem failed_tpcall_reported_ok :
    ¬ ∀ (cfg : CommSvrSocket) (rx : Reception) (o : TuxOutcome) (tx : List SendResult)
      (req : Request), (processParse cfg rx o tx).request = some req →
      (o.Reached → 0 ≤ o.tpcall → 0 ≤ o.recvlen.toInt) →
      TellsTruth (processParse cfg rx o tx) o := by
  intro h
  rcases called_sampleRequest (.returning (-1) 0 []) [] with ⟨req, hreq, -⟩
  have hmis : Mistaken (.returning (-1) 0 []) :=
    ⟨⟨by decide, rfl, rfl⟩, by decide, by decide⟩
  exact not_tellsTruth_of_mistaken hreq hmis (h _ _ _ _ req hreq (fun _ _ => by decide))

end Exchange
end CommServer
