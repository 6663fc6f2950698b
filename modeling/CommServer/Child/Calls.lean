import CommServer.Child.Origin

/-!
# Calls — the Tuxedo calls of a connection child

A child calls `comm_tux_tpcall` once at most, whatever interrupts it, and its answer is the answer to
that call.

* `Child.begins`  : the call that a step begins;
* `Child.Answers` : the calls of a child and what it has sent, told from what it was given;
* `answers_exec`  : this holds after every run in which the alarm strikes inside `process_main` and
  before the first byte, if at all.
-/

namespace CommServer

open CLib Transition

/-- The call of `comm_tux_tpcall` that this step begins, by its service name and its data packet. -/
def Child.begins (s : Child) (a : ChildAct) : List (List Byte × List Byte) :=
  match s.pc, a with
  | .received recvMsg, .go =>
      match parseRequest recvMsg with
      | none => []
      | some req => [(req.tranCode.str, req.requestData.str)]
  | _, _ => []

/-- The call of `comm_tux_tpcall` is begun, or will not be. -/
def Pc.asked : Pc → Bool
  | .start | .portKnown | .alarmSet | .receiving _ _ | .received _ => false
  | _ => true

/-- The message is a part of what a child was sent. -/
def Told (acts : List ChildAct) (msg : List Byte) : Prop :=
  ∃ errno rcvbuf stream, ChildAct.enter errno rcvbuf stream ∈ acts ∧ msg <+: stream

/-- The calls that a child has begun. -/
def begun (cfg : CommSvrSocket) (acts : List ChildAct) : List (List Byte × List Byte) :=
  emitted (childStep cfg) Child.begins Child.init acts

/-- What a child that was given `acts` has sent is the timeout response, or the answer to the only call
it has made; and it calls for nothing but a message it was sent. -/
structure Child.Answers (cfg : CommSvrSocket) (acts : List ChildAct) (sent : List Byte) : Prop where
  once : (begun cfg acts).length ≤ 1
  asked : ∀ call ∈ begun cfg acts, ∃ msg, Told acts msg ∧ call = (askedCode msg, askedData msg)
  sent : sent <+: timeoutMessage.text ∨
    ∃ msg o, Told acts msg ∧ begun cfg acts = [(askedCode msg, askedData msg)] ∧
      ChildAct.tux o ∈ acts ∧ sent <+: (answerTo msg o).text

/-! ## One step -/

section Step

variable {cfg : CommSvrSocket} {s s' : Child} {a : ChildAct}

/-- A step that begins a call leads to it. -/
theorem calling_of_begins (h : childStep cfg s a = some s') (hbegins : s.begins a ≠ []) :
    ∃ recvMsg req, s.pc = .received recvMsg ∧ parseRequest recvMsg = some req ∧
      s'.pc = .calling req ∧ s.begins a = [(req.tranCode.str, req.requestData.str)] := by
  unfold Child.begins at hbegins ⊢
  split at hbegins
  case h_1 recvMsg hpc =>
    split at hbegins
    case h_1 => exact absurd rfl hbegins
    case h_2 req hreq =>
      simp only [childStep, hpc, hreq] at h
      cases h
      exact ⟨recvMsg, req, hpc, hreq, rfl, rfl⟩
  case h_2 => exact absurd rfl hbegins

/-- There is no other way to a call. -/
theorem begins_of_calling {req : Request} (h : childStep cfg s a = some s')
    (hpc' : s'.pc = .calling req) : s.begins a = [(req.tranCode.str, req.requestData.str)] := by
  cases move_of_childStep h with
  | parses recvMsg req' hpc hreq =>
      cases hpc'
      simp only [Child.begins, hpc, hreq]
  | _ => cases hpc'

/-- Behind its call a child never gets in front of it again. -/
theorem asked_of_childStep (h : childStep cfg s a = some s') (hasked : s.pc.asked = true) :
    s'.pc.asked = true := by
  cases move_of_childStep h with
  -- The steps in front of the call do not begin behind it.
  | portFound hpc => simp [hpc, Pc.asked] at hasked
  | setAlarm hpc => simp [hpc, Pc.asked] at hasked
  | enter errno rcvbuf stream hpc => simp [hpc, Pc.asked] at hasked
  | recvAgain r rBufLen st st' hpc => simp [hpc, Pc.asked] at hasked
  | recvReturns r rBufLen st st' v hpc => simp [hpc, Pc.asked] at hasked
  | recvFull rBufLen st hpc => simp [hpc, Pc.asked] at hasked
  | _ => rfl

end Step

/-! ## Runs -/

/-- What is known of a child that was given `acts` and has begun `calls`. -/
structure Child.Record (acts : List ChildAct) (calls : List (List Byte × List Byte)) (s : Child) :
    Prop where
  once : calls.length ≤ 1
  none : s.pc.asked = false → calls = []
  calling : ∀ req, s.pc = .calling req → calls = [(req.tranCode.str, req.requestData.str)]
  asked : ∀ call ∈ calls, ∃ msg, Told acts msg ∧ call = (askedCode msg, askedData msg)
  hears : ∀ rBufLen st, s.pc = .receiving rBufLen st →
    ∃ errno rcvbuf stream, ChildAct.enter errno rcvbuf stream ∈ acts ∧ s.Hears stream
  origin : s.Origin (Told acts) fun code data o => calls = [(code, data)] ∧ ChildAct.tux o ∈ acts

section Record

variable {cfg : CommSvrSocket} {s s' : Child} {a : ChildAct} {acts : List ChildAct}
  {calls : List (List Byte × List Byte)}

theorem Told.concat {msg : List Byte} (h : Told acts msg) (a : ChildAct) : Told (acts ++ [a]) msg := by
  rcases h with ⟨errno, rcvbuf, stream, hmem, hpre⟩
  exact ⟨errno, rcvbuf, stream, List.mem_append_left _ hmem, hpre⟩

theorem record_init : Child.init.Record [] [] where
  once := Nat.zero_le 1
  none _ := rfl
  calling _ hpc := nomatch hpc
  asked _ hmem := nomatch hmem
  hears _ _ hpc := nomatch hpc
  origin := origin_init

/-- The request that a call is begun with was taken from a message that the child was sent. -/
theorem asked_of_begins (h : s.Record acts calls) (hstep : childStep cfg s a = some s') :
    ∀ call ∈ s.begins a, ∃ msg, Told acts msg ∧ call = (askedCode msg, askedData msg) := by
  intro call hmem
  rcases calling_of_begins hstep (List.ne_nil_of_mem hmem) with ⟨recvMsg, req, hpc, hreq, -, hbegins⟩
  have hcall : call = (req.tranCode.str, req.requestData.str) := by simpa [hbegins] using hmem
  have hasks := asks_of_parseRequest hreq
  have htold : Told acts recvMsg.str := by
    have hplace := h.origin.place
    rw [hpc] at hplace
    exact hplace
  refine ⟨recvMsg.str, htold, ?_⟩
  rw [hcall, hasks.tranCode, hasks.requestData]
  rfl

/-- Nothing is begun after the first call. -/
theorem begins_eq_nil (h : s.Record acts calls) (hstep : childStep cfg s a = some s')
    (hsome : calls ≠ []) : s.begins a = [] := by
  by_contra hbegins
  rcases calling_of_begins hstep hbegins with ⟨recvMsg, req, hpc, -, -, -⟩
  exact hsome (h.none (by rw [hpc]; rfl))

theorem hears_of_record (h : s.Record acts calls) (hstep : childStep cfg s a = some s')
    {rBufLen : Int} {st' : RecvSt maxbufLen} (hpc' : s'.pc = .receiving rBufLen st') :
    ∃ errno rcvbuf stream, ChildAct.enter errno rcvbuf stream ∈ acts ++ [a] ∧ s'.Hears stream := by
  rcases receiving_of_childStep hstep hpc' with
    ⟨errno, rcvbuf, stream, rfl, rfl⟩ | ⟨st, r, hpc, -, rfl, -⟩
  · refine ⟨errno, rcvbuf, stream, by simp, ?_⟩
    unfold Child.Hears
    rw [hpc']
    exact recvInit_inv _ _
      { errno := errno, rcvbuf := rcvbuf, stream := stream, rounds := [] }
  · rcases h.hears rBufLen st hpc with ⟨errno, rcvbuf, stream, hmem, hhears⟩
    refine ⟨errno, rcvbuf, stream, List.mem_append_left _ hmem, ?_⟩
    refine hears_step hhears ?_ hstep
    rintro _ _ _ ⟨⟩

/-- The message is a part of what the child was sent when it was entered. -/
theorem readsTo_of_record (h : s.Record acts calls) : ReadsTo cfg (Told acts) s a := by
  intro s' recvMsg hstep hpc'
  rcases received_of_childStep hstep hpc' with ⟨rBufLen, st, hpc, -⟩
  rcases h.hears rBufLen st hpc with ⟨errno, rcvbuf, stream, hmem, hhears⟩
  exact ⟨errno, rcvbuf, stream, hmem, readsTo_of_hears hhears s' recvMsg hstep hpc'⟩

theorem record_step (h : s.Record acts calls) (hstep : childStep cfg s a = some s') :
    s'.Record (acts ++ [a]) (calls ++ s.begins a) where
  once := by
    by_cases hbegins : s.begins a = []
    · rw [hbegins, List.append_nil]
      exact h.once
    · rcases calling_of_begins hstep hbegins with ⟨recvMsg, req, hpc, -, -, hone⟩
      rw [h.none (by rw [hpc]; rfl), hone]
      exact Nat.le_refl 1
  none := by
    intro hnot
    have hbefore : s.pc.asked = false := by
      by_contra hasked
      have hlater := asked_of_childStep hstep (by simpa using hasked)
      rw [hnot] at hlater
      cases hlater
    have hbegins : s.begins a = [] := by
      by_contra hne
      rcases calling_of_begins hstep hne with ⟨-, req, -, -, hpc', -⟩
      rw [hpc'] at hnot
      cases hnot
    rw [h.none hbefore, hbegins, List.append_nil]
  calling := by
    intro req hpc'
    have hbegins := begins_of_calling hstep hpc'
    have hnone : calls = [] := by
      by_contra hsome
      rw [begins_eq_nil h hstep hsome] at hbegins
      cases hbegins
    rw [hnone, hbegins, List.nil_append]
  asked := by
    intro call hmem
    have hold : ∃ msg, Told acts msg ∧ call = (askedCode msg, askedData msg) := by
      rcases List.mem_append.1 hmem with hmem | hmem
      · exact h.asked call hmem
      · exact asked_of_begins h hstep call hmem
    rcases hold with ⟨msg, htold, hcall⟩
    exact ⟨msg, htold.concat a, hcall⟩
  hears _ _ hpc' := hears_of_record h hstep hpc'
  origin := by
    have hmono : s.Origin (Told acts) fun code data o =>
        calls ++ s.begins a = [(code, data)] ∧ ChildAct.tux o ∈ acts ++ [a] := by
      refine h.origin.mono (fun _ hmsg => hmsg) ?_
      rintro code data o ⟨hcalls, hmem⟩
      have hnil := begins_eq_nil h hstep (by simp [hcalls])
      exact ⟨by rw [hnil, List.append_nil, hcalls], List.mem_append_left _ hmem⟩
    have hnext : s'.Origin (Told acts) fun code data o =>
        calls ++ s.begins a = [(code, data)] ∧ ChildAct.tux o ∈ acts ++ [a] := by
      refine origin_step hmono (readsTo_of_record h) ?_ hstep
      rintro req o hpc rfl
      have hcalls := h.calling req hpc
      have hnil := begins_eq_nil h hstep (by simp [hcalls])
      exact ⟨by rw [hnil, List.append_nil, hcalls], by simp⟩
    exact hnext.mono (fun _ hmsg => hmsg.concat a) fun _ _ _ hcall => hcall

end Record

theorem record_exec {cfg : CommSvrSocket} {acts : List ChildAct} {s : Child}
    (h : exec (childStep cfg) Child.init acts = some s) : s.Record acts (begun cfg acts) := by
  refine exec_induct_run (I := fun acts s => s.Record acts (begun cfg acts)) record_init ?_ h
  intro acts t a t' hrun hrecord hstep
  rw [begun, emitted_concat hrun]
  exact record_step hrecord hstep

/-- A child by itself. -/
theorem answers_exec {cfg : CommSvrSocket} {acts : List ChildAct} {s : Child}
    (hC : Along (childStep cfg) BeforeOutput Child.init acts)
    (h : exec (childStep cfg) Child.init acts = some s) : Child.Answers cfg acts s.wire := by
  have hrecord := record_exec h
  refine ⟨hrecord.once, hrecord.asked, ?_⟩
  rcases hrecord.origin.wire (one_response cfg hC h) with htimeout | ⟨msg, o, htold, hcall, hwire⟩
  · exact Or.inl htimeout
  · exact Or.inr ⟨msg, o, htold, hcall.1, hcall.2, hwire⟩

end CommServer
