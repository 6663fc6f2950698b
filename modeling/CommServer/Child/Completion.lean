import CommServer.Child.Origin

/-!
# Completion — a connection child sends the whole of its response

A child that is done has sent all of its normal response or all of the timeout response
(`Child.Whole`), if it finds its port, its `send` fails only when it is interrupted, and nothing makes it
leave an array or jump without a target (`Unimpeded`).

* `whole_step`    : the step lemma, for a child whose reception leaves a terminated message;
* `onCourse_step` : the same for the whole invariant, for a client that does not fill the array.
-/

namespace CommServer

open CLib Transition Protocol

/-- Nothing in the step keeps the child from a response; if `alarm` holds, the alarm may strike. -/
def Unimpeded (alarm : Prop) (c : Child) : ChildAct → Prop
  | .go | .enter _ _ _ | .recv _ | .send (.accepted _) => True
  | .localPort ok => ok = true
  | .tux o => o.Answered → 0 ≤ o.recvlen.toInt
  | .send (.failed e) => e = .eintr
  | .sigalrm => alarm ∧ c.pc.inMain = true ∧ c.wire = []

/-- All of one response is on the wire. -/
def Child.Complete (alarm : Prop) (c : Child) : Prop :=
  (alarm ∧ c.wire = timeoutMessage.text) ∨
    ∃ resp, c.normal = some resp ∧ c.wire = resp.sendMsg.str

/-- The child executes the program, and when it is done its response is complete. -/
def Child.Whole (alarm : Prop) (c : Child) : Prop :=
  match c.pc with
  | .parseReturned _ | .mainReturned _ | .closed | .exited => c.Complete alarm
  | .jumped | .sendingTimeout _ _ => alarm
  | .faulted | .wild => False
  | _ => True

section Step

variable {cfg : CommSvrSocket} {alarm : Prop} {c c' : Child} {a : ChildAct} {P : List Byte → Prop}
  {Q : List Byte → List Byte → TuxOutcome → Prop}

theorem Child.Whole.complete (h : c.Whole alarm) (hdone : c.pc = .closed ∨ c.pc = .exited) :
    c.Complete alarm := by
  rcases hdone with hpc | hpc
  · simpa only [Child.Whole, hpc] using h
  · simpa only [Child.Whole, hpc] using h

/-- A `send_nbytes` that has nothing left to send has sent the whole text. -/
theorem Sends.whole {wire : List Byte} {resp : Response} {m : Message} {st : SendSt}
    (h : Sends wire resp m st) (hleft : st.left = 0) : wire = m.text := by
  have hcount := h.inv.count
  have hall : st.sended = m.text.length := by omega
  rw [h.wire, h.inv.wire, hall]
  exact (List.prefix_iff_eq_take.1 h.carries.text_prefix).symm

/-- Only a failure ends the sending early. -/
theorem sendRound_unimpeded {bytes : List Byte} {st st' : SendSt} {r : SendResult} {v : Int}
    (hC : Unimpeded alarm c (.send r)) : sendRound bytes st r ≠ .done st' v := by
  intro hround
  cases r with
  | failed e =>
      have he : e = .eintr := hC
      simp [sendRound, he] at hround
  | accepted n => simp [sendRound] at hround

/-- The reception stays within its array. -/
theorem recvRound_ne_fault {written : List Byte} {tmot rBufLen : Int} {st st' : RecvSt maxbufLen}
    {r : ReadRound} (h : RecvInv (Buf.zeroed maxbufLen) maxbufLen written st) (hleft : 0 < st.left) :
    recvRound tmot rBufLen st r ≠ .done st' .fault := by
  intro hround
  have hinv := recvRound_inv tmot rBufLen r (Nat.le_refl _) hleft h
  rw [hround] at hinv
  simp at hinv

/-- The step lemma. -/
theorem whole_step {written : List Byte} (hinv : c.Inv) (horigin : c.Origin P Q)
    (hshort : ∀ msg, P msg → msg.length < maxbufLen) (hhears : c.Hears written) (h : c.Whole alarm)
    (hC : Unimpeded alarm c a) (hstep : childStep cfg c a = some c') : c'.Whole alarm := by
  cases move_of_childStep hstep with
  | portMissing hpc =>
      have hok : false = true := hC
      cases hok
  | recvFaults r rBufLen st st' hpc hleft hround =>
      have hst : RecvInv (Buf.zeroed maxbufLen) maxbufLen written st := by
        simpa only [Child.Hears, hpc] using hhears
      exact absurd hround (recvRound_ne_fault hst hleft)
  | parseFaults recvMsg hpc hreq =>
      -- The message is shorter than the array, and so terminated.
      have hmsg : P recvMsg.str := by simpa only [hpc, Pc.Follows] using horigin.place
      rcases parseRequest_spec (Buf.zero_mem_of_length_str_lt (hshort _ hmsg)) with ⟨req, hreq', -⟩
      rw [hreq'] at hreq
      cases hreq
  | callFaults o req hpc hcall =>
      have hready : c.wire = [] ∧ req.Ready := by simpa only [Child.Inv, hpc] using hinv
      rcases commTuxTpcall_returns req.tranCode.bytes cfg.tuxEnvstr.bytes hready.2.dataTerminated hC
        with ⟨t, ht⟩
      rw [ht] at hcall
      cases hcall
  | formatFaults req t hpc hresp =>
      obtain ⟨msg, o, -, hasks, -, hret, hdata⟩ : ∃ msg o, P msg ∧ Asks msg req ∧
          Q (askedCode msg) (askedData msg) o ∧ t.ret = (if o.Answered then eOk else eFail) ∧
          t.responseBuf.str = o.answerData := by
        simpa only [hpc, Pc.Follows] using horigin.place
      rcases carries_answerTo hasks hret hdata with ⟨resp, hresp', -⟩
      rw [hresp'] at hresp
      cases hresp
  | sendFails r resp st st' v hpc hround => exact absurd hround (sendRound_unimpeded hC)
  | sendEnds resp st hpc hleft =>
      -- The whole response has been sent.
      obtain ⟨hnormal, m, hsends⟩ : c.normal = some resp ∧ ∃ m, Sends c.wire resp m st := by
        simpa only [Child.Inv, hpc] using hinv
      exact Or.inr ⟨resp, hnormal, (hsends.whole hleft).trans hsends.carries.sendMsg.symm⟩
  | parseReturns ret hpc =>
      have hdone : c.Complete alarm := by simpa only [Child.Whole, hpc] using h
      exact hdone
  | formatsTimeout resp hpc hresp =>
      have halarm : alarm := by simpa only [Child.Whole, hpc] using h
      exact halarm
  | formatTimeoutFaults hpc hresp =>
      rcases formatTimeout_spec with ⟨resp, hresp', -⟩
      rw [hresp'] at hresp
      cases hresp
  | sendsTimeout r resp st st' hpc hround =>
      have halarm : alarm := by simpa only [Child.Whole, hpc] using h
      exact halarm
  | timeoutFails r resp st st' v hpc hround => exact absurd hround (sendRound_unimpeded hC)
  | timeoutEnds resp st hpc hleft =>
      -- The whole timeout response has been sent.
      have halarm : alarm := by simpa only [Child.Whole, hpc] using h
      have hsends : Sends c.wire resp timeoutMessage st := by simpa only [Child.Inv, hpc] using hinv
      exact Or.inl ⟨halarm, hsends.whole hleft⟩
  | closes ret hpc =>
      have hdone : c.Complete alarm := by simpa only [Child.Whole, hpc] using h
      exact hdone
  | exits hpc =>
      have hdone : c.Complete alarm := by simpa only [Child.Whole, hpc] using h
      exact hdone
  | jumps => exact hC.1
  | strays harmed hmain =>
      rw [hC.2.1] at hmain
      cases hmain
  | _ => trivial

end Step

/-! ## Runs -/

/-- The client does not fill the array of the child with other bytes than NUL. -/
def Fits (stream : List Byte) : Prop :=
  stream.length < maxbufLen ∨ (0 : Byte) ∈ stream.take maxbufLen

/-- Nothing keeps the child from a response, its client included. -/
def Answerable (c : Child) (a : ChildAct) : Prop :=
  Unimpeded True c a ∧ ∀ errno rcvbuf stream, a = .enter errno rcvbuf stream → Fits stream

/-- All that is known of such a child. -/
structure Child.OnCourse (c : Child) : Prop where
  inv : c.Inv
  origin : c.Origin (fun msg => msg.length < maxbufLen) fun _ _ _ => True
  hears : ∃ stream, Fits stream ∧ c.Hears stream
  whole : c.Whole True

section OnCourse

variable {cfg : CommSvrSocket} {c c' : Child} {a : ChildAct}

theorem beforeOutput_of_unimpeded {alarm : Prop} (hC : Unimpeded alarm c a) : BeforeOutput c a := by
  rintro rfl
  exact hC.2

/-- What has come of such a stream is terminated in the array. -/
theorem RecvInv.length_str_lt {stream : List Byte} {st : RecvSt maxbufLen}
    (h : RecvInv (Buf.zeroed maxbufLen) maxbufLen stream st) (hfits : Fits stream) :
    st.buf.str.length < maxbufLen := by
  have hcount := h.count
  have hbound := h.bound
  apply Buf.length_str_lt
  rw [h.bytes]
  by_cases hroom : st.readed < maxbufLen
  · -- The zero bytes of `memset` are left behind it.
    refine List.mem_append_right _ ?_
    rw [Buf.bytes_zeroed, List.drop_replicate]
    exact List.mem_replicate.2 ⟨by omega, rfl⟩
  · rcases hfits with hshort | hnul
    · omega
    · have hfull : st.readed = maxbufLen := by omega
      rw [hfull]
      exact List.mem_append_left _ hnul

theorem readsTo_of_fits {stream : List Byte} (hfits : Fits stream) (h : c.Hears stream) :
    ReadsTo cfg (fun msg => msg.length < maxbufLen) c a := by
  intro s' recvMsg hstep hpc'
  rcases received_of_childStep hstep hpc' with ⟨rBufLen, st, hpc, hend⟩
  have hst : RecvInv (Buf.zeroed maxbufLen) maxbufLen stream st := by
    simpa only [Child.Hears, hpc] using h
  rcases hend with ⟨-, rfl⟩ | ⟨r, st', v, -, hleft, hround, rfl⟩
  · exact hst.length_str_lt hfits
  · have hinv := recvRound_inv (cfg.waterTimeout.tdiv 10) rBufLen r (Nat.le_refl _) hleft hst
    rw [hround] at hinv
    exact hinv.1.length_str_lt hfits

theorem onCourse_step (h : c.OnCourse) (hC : Answerable c a) (hstep : childStep cfg c a = some c') :
    c'.OnCourse := by
  rcases h.hears with ⟨stream, hfits, hhears⟩
  refine ⟨inv_step h.inv (beforeOutput_of_unimpeded hC.1) hstep,
    origin_step h.origin (readsTo_of_fits hfits hhears) (fun _ _ _ _ => trivial) hstep, ?_,
    whole_step h.inv h.origin (fun _ hmsg => hmsg) hhears h.whole hC.1 hstep⟩
  by_cases henter : ∃ errno rcvbuf stream, a = .enter errno rcvbuf stream
  · rcases henter with ⟨errno, rcvbuf, stream', rfl⟩
    refine ⟨stream', hC.2 _ _ _ rfl, ?_⟩
    -- In front of the reception nothing is heard.
    have hbefore : c.Hears stream' := by
      unfold Child.Hears
      split
      case h_1 rBufLen st hpc => simp [childStep, hpc] at hstep
      case h_2 => trivial
    refine hears_step hbefore ?_ hstep
    rintro _ _ _ ⟨⟩
    rfl
  · refine ⟨stream, hfits, hears_step hhears ?_ hstep⟩
    rintro errno rcvbuf stream' rfl
    exact absurd ⟨errno, rcvbuf, stream', rfl⟩ henter

theorem onCourse_init : Child.init.OnCourse :=
  ⟨Child.inv_init, origin_init, ⟨[], Or.inl (by decide), trivial⟩, trivial⟩

/-- A child for which this holds all along has sent all of one response when it is done. -/
theorem complete_exec {acts : List ChildAct} (hC : Along (childStep cfg) Answerable Child.init acts)
    (h : exec (childStep cfg) Child.init acts = some c) (hdone : c.pc = .closed ∨ c.pc = .exited) :
    c.Complete True := by
  have hcourse : c.OnCourse :=
    exec_induct_along (I := Child.OnCourse) (fun _ _ _ hI hC hstep => onCourse_step hI hC hstep)
      onCourse_init hC h
  exact hcourse.whole.complete hdone

end OnCourse

end CommServer
