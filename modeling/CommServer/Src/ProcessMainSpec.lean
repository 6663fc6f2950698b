import CommServer.Src.ProcessMain
import CommServer.Src.ProcessParseSpec
import CommServer.Transition.System

/-!
# ProcessMainSpec — a child without an alarm is `process_parse`

The step machine of a connection child takes the loops of `recv_nbytes` and `send_nbytes` apart.
Without an alarm it puts them together again: whatever `processParse` computes, the child gets there
(`child_follows_processParse`), and from there to its exit (`child_exits`).

What a child has sent is not taken back (`wire_of_childStep`), and nothing follows once it has hung up
(`hungUp_of_childStep`).
-/

namespace CommServer

open CLib Transition

/-- The connection is closed, or there is no program left to use it. -/
def Pc.hungUp : Pc → Bool
  | .closed | .exited | .wild => true
  | _ => false

/-- Every step but the alarm. -/
def Quiet (a : ChildAct) : Prop :=
  a ≠ .sigalrm

section Child

variable {cfg : CommSvrSocket}

/-- The reception, from the call of `process_parse` on. -/
theorem child_receives {rx : Reception} {st : RecvSt maxbufLen} {v : Int}
    (h : receive cfg rx = (st, some (.ret v))) (armed : Bool) :
    Reaches (childStep cfg) Quiet
      { pc := .alarmSet, armed := armed, wire := [], normal := none }
      { pc := .received st.buf, armed := armed, wire := [], normal := none } := by
  let rb := bclGetrcvbuflen rx.rcvbuf
  -- The child inside the loop, and the child behind it.
  let f (x : RecvSt maxbufLen) : Child :=
    { pc := .receiving rb x, armed := armed, wire := [], normal := none }
  let g (x : RecvSt maxbufLen) (r : RecvEnd) : Child :=
    { pc := if r = .fault then .faulted else .received x.buf
      armed := armed
      wire := []
      normal := none }
  have henter : Reaches (childStep cfg) Quiet
      { pc := .alarmSet, armed := armed, wire := [], normal := none }
      (f (recvInit (Buf.zeroed maxbufLen) maxbufLen rx)) :=
    Reaches.single (a := .enter rx.errno rx.rcvbuf rx.stream) (by simp [Quiet]) rfl
  refine henter.trans ?_
  show Reaches (childStep cfg) Quiet (f (recvInit (Buf.zeroed maxbufLen) maxbufLen rx))
    (g st (.ret v))
  refine Reaches.of_run (L := recvLoop (cfg.waterTimeout.tdiv 10) rb) (f := f) (g := g)
    ?_ ?_ ?_ h
  · -- The loop condition fails.
    intro x r hexit
    rcases recvLoop_exit_eq_some_iff.1 hexit with ⟨hleft, hr⟩
    rw [← hr]
    exact Reaches.single (a := .go) (by simp [Quiet]) (by simp [childStep, f, g, hleft])
  · -- A round that goes on.
    intro x e x' hexit hround
    have hleft := recvLoop_exit_eq_none_iff.1 hexit
    have hround' : recvRound (cfg.waterTimeout.tdiv 10) rb x e = .again x' := hround
    exact Reaches.single (a := .recv e) (by simp [Quiet])
      (by simp [childStep, f, hleft, hround'])
  · -- A round that ends the loop.
    intro x e x' r hexit hround
    have hleft := recvLoop_exit_eq_none_iff.1 hexit
    have hround' : recvRound (cfg.waterTimeout.tdiv 10) rb x e = .done x' r := hround
    cases r with
    | ret w =>
        exact Reaches.single (a := .recv e) (by simp [Quiet])
          (by simp [childStep, f, g, hleft, hround'])
    | fault =>
        exact Reaches.single (a := .recv e) (by simp [Quiet])
          (by simp [childStep, f, g, hleft, hround'])

/-- The transmission of the normal response. -/
theorem child_sends {resp : Response} {tx : List SendResult} {st : SendSt} {v : Int}
    (h : sendNbytes resp.sendMsg.bytes resp.sendlen tx = (st, some v)) (armed : Bool) :
    Reaches (childStep cfg) Quiet
      { pc := .sending resp (sendInit resp.sendlen), armed := armed, wire := [], normal := some resp }
      { pc := parseReturn resp v, armed := armed, wire := st.wire, normal := some resp } := by
  -- The wire of the child is the wire of the loop.
  let f (x : SendSt) : Child :=
    { pc := .sending resp x, armed := armed, wire := x.wire, normal := some resp }
  let g (x : SendSt) (r : Int) : Child :=
    { pc := parseReturn resp r, armed := armed, wire := x.wire, normal := some resp }
  show Reaches (childStep cfg) Quiet (f (sendInit resp.sendlen)) (g st v)
  refine Reaches.of_run (L := sendLoop resp.sendMsg.bytes) (f := f) (g := g) ?_ ?_ ?_ h
  · -- The loop condition fails.
    intro x r hexit
    rcases sendLoop_exit_eq_some_iff.1 hexit with ⟨hleft, hr⟩
    rw [← hr]
    exact Reaches.single (a := .go) (by simp [Quiet])
      (by simp [childStep, sendDone, f, g, hleft])
  · -- A round that goes on.
    intro x e x' hexit hround
    have hleft := sendLoop_exit_eq_none_iff.1 hexit
    have hround' : sendRound resp.sendMsg.bytes x e = .again x' := hround
    exact Reaches.single (a := .send e) (by simp [Quiet])
      (by simp [childStep, sendStep, f, hleft, hround', sendRound_wire hround'])
  · -- A round that ends the loop.
    intro x e x' r hexit hround
    have hleft := sendLoop_exit_eq_none_iff.1 hexit
    have hround' : sendRound resp.sendMsg.bytes x e = .done x' r := hround
    exact Reaches.single (a := .send e) (by simp [Quiet])
      (by simp [childStep, sendStep, f, g, hleft, hround', (sendRound_failed hround').1])

/-- Without an alarm the child goes where `process_parse` goes: it has sent what `process_parse`
sends, formed the response it forms, and stands at its return with its return value. -/
theorem child_follows_processParse {rx : Reception} {o : TuxOutcome} {tx : List SendResult}
    {ret : Int} (h : (processParse cfg rx o tx).ret = some ret) (armed : Bool) :
    Reaches (childStep cfg) Quiet
      { pc := .alarmSet, armed := armed, wire := [], normal := none }
      { pc := .parseReturned ret
        armed := armed
        wire := (processParse cfg rx o tx).sent
        normal := (processParse cfg rx o tx).response } := by
  -- `process_parse` returns, so the reception did, and so did each part after it.
  obtain ⟨st, v, hrx⟩ : ∃ st v, receive cfg rx = (st, some (.ret v)) := by
    cases hend : (receive cfg rx).2 with
    | none => simp [processParse, hend, ParseRun.idle] at h
    | some fin =>
        cases fin with
        | fault => simp [processParse, hend, ParseRun.idle] at h
        | ret v => exact ⟨_, v, Prod.ext rfl hend⟩
  have hrun : processParse cfg rx o tx = parseReceived cfg st.buf o tx := by
    simp [processParse, hrx]
  rw [hrun] at h ⊢
  refine (child_receives hrx armed).trans ?_
  cases hreq : parseRequest st.buf with
  | none => simp [parseReceived, exchange, hreq, ParseRun.idle] at h
  | some req =>
      have hparse : Reaches (childStep cfg) Quiet
          { pc := .received st.buf, armed := armed, wire := [], normal := none }
          { pc := .calling req, armed := armed, wire := [], normal := none } :=
        Reaches.single (a := .go) (by simp [Quiet]) (by simp [childStep, hreq])
      refine hparse.trans ?_
      cases hcall : commTuxTpcall req.tranCode.bytes req.requestData.bytes (Buf.zeroed maxbufLen)
          cfg.tuxEnvstr.bytes o with
      | none => simp [parseReceived, exchange, hreq, hcall, ParseRun.idle] at h
      | some t =>
          have htux : Reaches (childStep cfg) Quiet
              { pc := .calling req, armed := armed, wire := [], normal := none }
              { pc := .called req t, armed := armed, wire := [], normal := none } :=
            Reaches.single (a := .tux o) (by simp [Quiet]) (by simp [childStep, hcall])
          refine htux.trans ?_
          cases hresp : formatResponse t.ret req.tranCode t.responseBuf with
          | none => simp [parseReceived, exchange, hreq, hcall, hresp, ParseRun.idle] at h
          | some resp =>
              have hformat : Reaches (childStep cfg) Quiet
                  { pc := .called req t, armed := armed, wire := [], normal := none }
                  { pc := .sending resp (sendInit resp.sendlen)
                    armed := armed
                    wire := []
                    normal := some resp } :=
                Reaches.single (a := .go) (by simp [Quiet]) (by simp [childStep, hresp])
              refine hformat.trans ?_
              simp only [parseReceived, exchange, hreq, hcall, hresp, sendResponse] at h ⊢
              cases hsend : (sendNbytes resp.sendMsg.bytes resp.sendlen tx).2 with
              | none => simp [hsend] at h
              | some w =>
                  have hret : (if w ≠ resp.sendlen then eFail else eOk) = ret := by
                    simpa [hsend] using h
                  rw [← hret]
                  exact child_sends (Prod.ext rfl hsend) armed

/-- Such a child closes its connection and exits, with nothing more sent. -/
theorem child_exits {rx : Reception} {o : TuxOutcome} {tx : List SendResult} {ret : Int}
    (h : (processParse cfg rx o tx).ret = some ret) :
    Reaches (childStep cfg) Quiet Child.init
      { pc := .exited
        armed := cfg.waterTimeout ≠ 0
        wire := (processParse cfg rx o tx).sent
        normal := (processParse cfg rx o tx).response } := by
  have hstart : Reaches (childStep cfg) Quiet Child.init
      { pc := .alarmSet, armed := cfg.waterTimeout ≠ 0, wire := [], normal := none } :=
    ⟨[.localPort true, .go], by simp [Quiet], rfl⟩
  refine (hstart.trans (child_follows_processParse h _)).trans ?_
  exact ⟨[.go, .go, .go], by simp [Quiet], rfl⟩

end Child

/-! ## The wire -/

section Wire

variable {cfg : CommSvrSocket} {s s' : Child} {a : ChildAct}

theorem wire_of_sendStep {resp : Response} {st : SendSt} {r : SendResult} {again : SendSt → Pc}
    {done : Int → Pc} (hagain : ∀ x, (again x).hungUp = false) (hdone : ∀ v, (done v).hungUp = false)
    (h : sendStep s resp st r again done = some s') :
    s'.pc.hungUp = false ∧ ∃ x, s'.wire = s.wire ++ x := by
  unfold sendStep at h
  split at h
  · split at h
    case h_1 st' _ =>
      cases h
      exact ⟨hagain st', _, rfl⟩
    case h_2 v _ =>
      cases h
      exact ⟨hdone v, [], (List.append_nil _).symm⟩
    case h_3 => cases h
  · cases h

/-- Only a `send` inside `process_main` puts something on the wire, and behind what is there. -/
theorem wire_of_childStep (h : childStep cfg s a = some s') :
    s'.wire = s.wire ∨
      (s.pc.hungUp = false ∧ s'.pc.hungUp = false ∧ ∃ x, s'.wire = s.wire ++ x) := by
  cases a with
  | send r =>
      right
      simp only [childStep] at h
      split at h
      case h_1 resp st hpc =>
        exact ⟨by simp [hpc, Pc.hungUp], wire_of_sendStep (fun _ => rfl) (fun _ => rfl) h⟩
      case h_2 resp st hpc =>
        exact ⟨by simp [hpc, Pc.hungUp], wire_of_sendStep (fun _ => rfl) (fun _ => rfl) h⟩
      case h_3 => cases h
  | go =>
      left
      simp only [childStep, sendDone] at h
      repeat' split at h
      all_goals first
        | cases h
          rfl
        | cases h
  | _ =>
      left
      simp only [childStep] at h
      repeat' split at h
      all_goals first
        | cases h
          rfl
        | cases h

theorem hungUp_of_childStep (h : childStep cfg s a = some s') (hs : s.pc.hungUp = true) :
    s'.pc.hungUp = true ∧ s'.wire = s.wire := by
  constructor
  · cases hpc : s.pc with
    | closed =>
        cases a <;> simp [childStep, hpc, Pc.running, Pc.inMain] at h <;> simp [← h, Pc.hungUp]
    | exited => cases a <;> simp [childStep, hpc, Pc.running] at h
    | wild => cases a <;> simp [childStep, hpc, Pc.running] at h
    | _ => simp [hpc, Pc.hungUp] at hs
  · rcases wire_of_childStep h with hsame | ⟨hopen, -⟩
    · exact hsame
    · rw [hs] at hopen
      cases hopen

end Wire

end CommServer
