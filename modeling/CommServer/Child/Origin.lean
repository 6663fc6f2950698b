import CommServer.Child.OneResponse

/-!
# Origin — what a child answers

The normal response of a child is the answer to the message that its reception left
(`Child.Origin`, `origin_step`): it is formed from the fields of that message and from the outcome of
the one Tuxedo call that was made with them.

* `answerTo` : the answer to a message, for an outcome of the call;
* `Child.Origin P Q` : the message is in `P`, and the call and its outcome are in `Q`.
-/

namespace CommServer

open CLib Text Transition Protocol

/-! ## Answers -/

/-- The service that a message asks for. -/
def askedCode (msg : List Byte) : List Byte :=
  trim isBlank ((field [dollar] msg 1).take 63)

/-- The data packet that it hands to the service. -/
def askedData (msg : List Byte) : List Byte :=
  (field [dollar] msg 2).take desStrLen

theorem dollar_not_mem_askedCode (msg : List Byte) : dollar ∉ askedCode msg := by
  intro h
  have hmem := (List.dropWhile_sublist _).subset ((List.rdropWhile_prefix _ _).subset h)
  exact not_mem_field msg 1 (List.mem_of_mem_take hmem)

/-- The answer to a message. -/
def answerTo (msg : List Byte) (o : TuxOutcome) : Message where
  code := respCodeOf (if o.Answered then eOk else eFail)
  tranCode := askedCode msg
  data := o.answerData
  code_free := (respCodeOf_clean _).2.1
  tranCode_free := dollar_not_mem_askedCode msg

/-- The response that is formed behind the call is the answer. -/
theorem carries_answerTo {msg : List Byte} {req : Request} {o : TuxOutcome} {t : TuxRun}
    (hasks : Asks msg req) (hret : t.ret = if o.Answered then eOk else eFail)
    (hdata : t.responseBuf.str = o.answerData) :
    ∃ resp, formatResponse t.ret req.tranCode t.responseBuf = some resp ∧
      resp.Carries (answerTo msg o) := by
  rcases formatResponse_spec t.ret hasks.tranCode_facts.2 (hdata ▸ length_answerData_le o) with
    ⟨resp, hresp, -, hmsg, hlen⟩
  have htext : resp.sendMsg.str = (answerTo msg o).text := by
    rw [hmsg, hret, hasks.tranCode, hdata]
    rfl
  exact ⟨resp, hresp, htext, by rw [hlen, htext]⟩

/-! ## The invariant -/

/-- A reception that ends with this step leaves a message in `P`. -/
def ReadsTo (cfg : CommSvrSocket) (P : List Byte → Prop) (s : Child) (a : ChildAct) : Prop :=
  ∀ s' recvMsg, childStep cfg s a = some s' → s'.pc = .received recvMsg → P recvMsg.str

/-- The service, the data packet and the outcome of a call that is made in this step are in `Q`. -/
def CallsTo (Q : List Byte → List Byte → TuxOutcome → Prop) (s : Child) (a : ChildAct) : Prop :=
  ∀ req o, s.pc = .calling req → a = .tux o → Q req.tranCode.str req.requestData.str o

/-- What is known on the way from the message to the response. -/
def Pc.Follows (P : List Byte → Prop) (Q : List Byte → List Byte → TuxOutcome → Prop) : Pc → Prop
  | .received recvMsg => P recvMsg.str
  | .calling req => ∃ msg, P msg ∧ Asks msg req
  | .called req t =>
      ∃ msg o, P msg ∧ Asks msg req ∧ Q (askedCode msg) (askedData msg) o ∧
        t.ret = (if o.Answered then eOk else eFail) ∧ t.responseBuf.str = o.answerData
  | _ => True

structure Child.Origin (P : List Byte → Prop) (Q : List Byte → List Byte → TuxOutcome → Prop)
    (s : Child) : Prop where
  normal : ∀ resp, s.normal = some resp →
    ∃ msg o, P msg ∧ Q (askedCode msg) (askedData msg) o ∧ resp.Carries (answerTo msg o)
  place : s.pc.Follows P Q

section Step

variable {cfg : CommSvrSocket} {s s' : Child} {P : List Byte → Prop}
  {Q : List Byte → List Byte → TuxOutcome → Prop}

/-- The step lemma. -/
theorem origin_step {a : ChildAct} (h : s.Origin P Q) (hread : ReadsTo cfg P s a)
    (hcall : CallsTo Q s a) (hstep : childStep cfg s a = some s') : s'.Origin P Q := by
  have hreads := fun recvMsg => hread s' recvMsg hstep
  cases move_of_childStep hstep with
  | recvReturns r rBufLen st st' v hpc hleft hround => exact ⟨h.normal, hreads st'.buf rfl⟩
  | recvFull rBufLen st hpc hleft => exact ⟨h.normal, hreads st.buf rfl⟩
  -- The fields are taken out of the message.
  | parses recvMsg req hpc hreq =>
      have hmsg : P recvMsg.str := by simpa only [hpc, Pc.Follows] using h.place
      exact ⟨h.normal, recvMsg.str, hmsg, asks_of_parseRequest hreq⟩
  | calls o req t hpc ht =>
      obtain ⟨msg, hmsg, hasks⟩ : ∃ msg, P msg ∧ Asks msg req := by
        simpa only [hpc, Pc.Follows] using h.place
      rcases commTuxTpcall_some hasks.dataTerminated ht with ⟨hret, hdata⟩
      have hQ : Q (askedCode msg) (askedData msg) o := by
        have hsame := hcall req o hpc rfl
        rwa [hasks.tranCode, hasks.requestData] at hsame
      exact ⟨h.normal, msg, o, hmsg, hasks, hQ, hret, hdata⟩
  -- The normal response is formed.
  | formats req t resp hpc hresp =>
      obtain ⟨msg, o, hmsg, hasks, hQ, hret, hdata⟩ : ∃ msg o, P msg ∧ Asks msg req ∧
          Q (askedCode msg) (askedData msg) o ∧ t.ret = (if o.Answered then eOk else eFail) ∧
          t.responseBuf.str = o.answerData := by
        simpa only [hpc, Pc.Follows] using h.place
      rcases carries_answerTo hasks hret hdata with ⟨resp', hresp', hcarries⟩
      refine ⟨fun resp'' hsome => ?_, trivial⟩
      have hsame : resp' = resp'' := Option.some.inj (hresp'.symm.trans (hresp.trans hsome))
      exact ⟨msg, o, hmsg, hQ, hsame ▸ hcarries⟩
  | _ => exact ⟨h.normal, trivial⟩

theorem origin_init : Child.init.Origin P Q :=
  ⟨fun _ hresp => (nomatch hresp), trivial⟩

end Step

theorem Child.Origin.mono {s : Child} {P P' : List Byte → Prop}
    {Q Q' : List Byte → List Byte → TuxOutcome → Prop} (h : s.Origin P Q)
    (hP : ∀ msg, P msg → P' msg) (hQ : ∀ c d o, Q c d o → Q' c d o) : s.Origin P' Q' := by
  refine ⟨?_, ?_⟩
  · intro resp hresp
    rcases h.normal resp hresp with ⟨msg, o, hmsg, hcall, hcarries⟩
    exact ⟨msg, o, hP msg hmsg, hQ _ _ _ hcall, hcarries⟩
  · have hplace := h.place
    unfold Pc.Follows at hplace ⊢
    split at hplace
    · exact hP _ hplace
    · rcases hplace with ⟨msg, hmsg, hasks⟩
      exact ⟨msg, hP msg hmsg, hasks⟩
    · rcases hplace with ⟨msg, o, hmsg, hasks, hcall, hout⟩
      exact ⟨msg, o, hP msg hmsg, hasks, hQ _ _ _ hcall, hout⟩
    · trivial

/-- All that a child has put on its wire is a prefix of the timeout response or of the answer. -/
theorem Child.Origin.wire {s : Child} {P : List Byte → Prop}
    {Q : List Byte → List Byte → TuxOutcome → Prop} (h : s.Origin P Q) (hone : s.OneResponse) :
    s.wire <+: timeoutMessage.text ∨
      ∃ msg o, P msg ∧ Q (askedCode msg) (askedData msg) o ∧ s.wire <+: (answerTo msg o).text := by
  rcases hone with htimeout | ⟨resp, m, hnormal, hm, hwire⟩
  · exact Or.inl htimeout
  · rcases h.normal resp hnormal with ⟨msg, o, hmsg, hcall, hcarries⟩
    -- The same response carries one text only.
    have htext : m.text = (answerTo msg o).text := hm.sendMsg.symm.trans hcarries.sendMsg
    exact Or.inr ⟨msg, o, hmsg, hcall, htext ▸ hwire⟩

/-! ## What a child hears -/

/-- The child has read a part of `written`, and the rest is what it has not read. -/
def Child.Hears (written : List Byte) (s : Child) : Prop :=
  match s.pc with
  | .receiving _ st => RecvInv (Buf.zeroed maxbufLen) maxbufLen written st
  | _ => True

section Hears

variable {cfg : CommSvrSocket} {s s' : Child} {a : ChildAct} {written : List Byte}

/-- The reception begins with what the peer has sent, and goes on round by round. -/
theorem receiving_of_childStep {rBufLen : Int} {st' : RecvSt maxbufLen}
    (hstep : childStep cfg s a = some s') (hpc' : s'.pc = .receiving rBufLen st') :
    (∃ errno rcvbuf stream, a = .enter errno rcvbuf stream ∧
      st' = recvInit (Buf.zeroed maxbufLen) maxbufLen
        { errno := errno, rcvbuf := rcvbuf, stream := stream, rounds := [] }) ∨
      ∃ st r, s.pc = .receiving rBufLen st ∧ 0 < st.left ∧ a = .recv r ∧
        (recvRound (cfg.waterTimeout.tdiv 10) rBufLen st r = .again st' ∨
          recvRound (cfg.waterTimeout.tdiv 10) rBufLen st r = .waiting st') := by
  cases move_of_childStep hstep with
  | enter errno rcvbuf stream hpc =>
      cases hpc'
      exact Or.inl ⟨errno, rcvbuf, stream, rfl, rfl⟩
  | recvAgain r rb st x hpc hleft hround =>
      cases hpc'
      exact Or.inr ⟨st, r, hpc, hleft, rfl, hround⟩
  -- No other step leads into the loop of `recv_nbytes`.
  | _ => cases hpc'

/-- It ends with a full array or with the last round, and `recv_msg` is what it leaves. -/
theorem received_of_childStep {recvMsg : Buf maxbufLen} (hstep : childStep cfg s a = some s')
    (hpc' : s'.pc = .received recvMsg) :
    ∃ rBufLen st, s.pc = .receiving rBufLen st ∧
      ((st.left = 0 ∧ st.buf = recvMsg) ∨
        ∃ r st' v, a = .recv r ∧ 0 < st.left ∧
          recvRound (cfg.waterTimeout.tdiv 10) rBufLen st r = .done st' v ∧ st'.buf = recvMsg) := by
  cases move_of_childStep hstep with
  | recvReturns r rb st st' v hpc hleft hround =>
      cases hpc'
      exact ⟨rb, st, hpc, Or.inr ⟨r, st', _, rfl, hleft, hround, rfl⟩⟩
  | recvFull rb st hpc hleft =>
      cases hpc'
      exact ⟨rb, st, hpc, Or.inl ⟨hleft, rfl⟩⟩
  | _ => cases hpc'

/-- The step lemma, for a peer that had written all of `written` when the reception began. -/
theorem hears_step (h : s.Hears written)
    (henter : ∀ errno rcvbuf stream, a = .enter errno rcvbuf stream → stream = written)
    (hstep : childStep cfg s a = some s') : s'.Hears written := by
  unfold Child.Hears
  split
  case h_1 rBufLen st' hpc' =>
    rcases receiving_of_childStep hstep hpc' with
      ⟨errno, rcvbuf, stream, ha, rfl⟩ | ⟨st, r, hpc, hleft, -, hround⟩
    · rw [← henter _ _ _ ha]
      exact recvInit_inv _ _
        { errno := errno, rcvbuf := rcvbuf, stream := stream, rounds := [] }
    · have hst : RecvInv (Buf.zeroed maxbufLen) maxbufLen written st := by
        simpa only [Child.Hears, hpc] using h
      have hinv := recvRound_inv (cfg.waterTimeout.tdiv 10) rBufLen r (Nat.le_refl _) hleft hst
      rcases hround with hround | hround
      · rw [hround] at hinv
        exact hinv
      · rw [hround] at hinv
        exact hinv
  case h_2 => trivial

/-- The message that a reception leaves is a part of what was written. -/
theorem RecvInv.isPrefix_str {st : RecvSt maxbufLen}
    (h : RecvInv (Buf.zeroed maxbufLen) maxbufLen written st) : st.buf.str <+: written := by
  have hcut : st.buf.str = cstr (written.take st.readed) := by
    rw [Buf.str, h.bytes, Buf.bytes_zeroed, List.drop_replicate]
    cases maxbufLen - st.readed with
    | zero => rw [List.replicate_zero, List.append_nil]
    | succ n => rw [List.replicate_succ, cstr_append_zero_cons]
  have hpre : cstr (written.take st.readed) <+: written.take st.readed := cstr_prefix _
  rw [hcut]
  exact hpre.trans (List.take_prefix _ _)

/-- Whatever ends the reception, the message is a part of what was written. -/
theorem readsTo_of_hears (h : s.Hears written) : ReadsTo cfg (· <+: written) s a := by
  intro s' recvMsg hstep hpc'
  rcases received_of_childStep hstep hpc' with ⟨rBufLen, st, hpc, hend⟩
  have hst : RecvInv (Buf.zeroed maxbufLen) maxbufLen written st := by
    simpa only [Child.Hears, hpc] using h
  rcases hend with ⟨-, rfl⟩ | ⟨r, st', v, -, hleft, hround, rfl⟩
  · exact hst.isPrefix_str
  · have hinv := recvRound_inv (cfg.waterTimeout.tdiv 10) rBufLen r (Nat.le_refl _) hleft hst
    rw [hround] at hinv
    exact hinv.1.isPrefix_str

end Hears

end CommServer
