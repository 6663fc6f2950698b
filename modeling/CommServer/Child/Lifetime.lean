import CommServer.Child.OneResponse

/-!
# Lifetime — a connection child does not go on for ever

Each step of a child takes it nearer to its exit (`Child.rank`), but for the rounds of its loops in which
no byte comes or goes (`Child.idle`): those that a signal interrupts, and those in which `select` has not
returned.

* `rank_step`       : one step;
* `child_bounded`   : how many steps there can be that are not idle.
-/

namespace CommServer

open CLib Transition

/-- The step is a round of a loop that moves nothing. -/
def Child.idle (cfg : CommSvrSocket) (s : Child) : ChildAct → Bool
  | .recv r =>
      match s.pc with
      | .receiving rBufLen st =>
          match recvRound (cfg.waterTimeout.tdiv 10) rBufLen st r with
          | .again st' => st'.left = st.left
          | .waiting _ => true
          | .done _ _ => false
      | _ => false
  | .send r =>
      match s.pc with
      | .sending resp st | .sendingTimeout resp st =>
          match sendRound resp.sendMsg.bytes st r with
          | .again st' => st'.left = st.left
          | _ => false
      | _ => false
  | _ => false

/-- How many steps there are at most to the exit, if no alarm strikes and no round is idle. -/
def Pc.rank : Pc → Nat
  | .exited | .faulted | .wild => 0
  | .closed => 1
  | .mainReturned _ => 2
  | .parseReturned _ => 3
  | .sendingTimeout _ st => 3 + st.left
  | .jumped => 4 + maxbufLen
  | .sending _ st => 4 + st.left
  | .called _ _ => 5 + maxbufLen
  | .calling _ => 6 + maxbufLen
  | .received _ => 7 + maxbufLen
  | .receiving _ st => 8 + maxbufLen + st.left
  | .alarmSet => 9 + 2 * maxbufLen
  | .portKnown => 15 + 3 * maxbufLen
  | .start => 16 + 3 * maxbufLen

/-- The same with the alarm, which can send it back once. -/
def Child.rank (s : Child) : Nat :=
  s.pc.rank + if s.armed then 5 + maxbufLen else 0

theorem Child.rank_init : Child.init.rank = 16 + 3 * maxbufLen := rfl

/-! ## Rounds -/

theorem lt_of_strlen {k n : Nat} {b : Buf k} (h : strlen b.bytes = some n) : n < k := by
  have hmem : (0 : Byte) ∈ b.bytes := (strlen_isSome_iff _).1 (by rw [h]; rfl)
  rw [strlen_of_mem hmem] at h
  have hn : b.str.length = n := Option.some.inj h
  exact hn ▸ Buf.length_str_lt hmem

theorem sendlen_lt_of_formatResponse {ret : Int} {tranCode : Buf 64} {data : Buf maxbufLen}
    {resp : Response} (h : formatResponse ret tranCode data = some resp) : resp.sendlen < maxbufLen := by
  simp only [formatResponse, Option.bind_eq_bind, Option.bind_eq_some_iff] at h
  rcases h with ⟨_, _, _, _, n, hlen, hresp⟩
  cases hresp
  exact lt_of_strlen hlen

theorem sendlen_lt_of_formatTimeout {resp : Response} (h : formatTimeout = some resp) :
    resp.sendlen < maxbufLen := by
  simp only [formatTimeout, Option.bind_eq_bind, Option.bind_eq_some_iff] at h
  rcases h with ⟨_, _, n, hlen, hresp⟩
  cases hresp
  exact lt_of_strlen hlen

/-- No round of `send_nbytes` has more to send than the one before. -/
theorem left_of_sendRound {bytes : List Byte} {st st' : SendSt} {r : SendResult}
    (h : sendRound bytes st r = .again st') : st'.left ≤ st.left := by
  cases r with
  | failed e =>
      simp only [sendRound] at h
      split at h
      · cases h
        exact Nat.le_refl _
      · cases h
  | accepted n =>
      simp only [sendRound] at h
      cases h
      exact Nat.sub_le _ _

/-- And no round of `recv_nbytes` has more to receive. -/
theorem left_of_recvRound {tmot rBufLen : Int} {st st' : RecvSt maxbufLen} {r : ReadRound}
    (h : recvRound tmot rBufLen st r = .again st') : st'.left ≤ st.left := by
  unfold recvRound at h
  split at h
  case h_1 => cases h
  case h_2 e _ =>
    unfold recvReadable at h
    split at h
    · split at h
      · cases h
        exact Nat.le_refl _
      · cases h
    · simp only at h
      split at h
      · split at h
        · cases h
          exact Nat.le_refl _
        · cases h
      · split at h
        · cases h
        · cases h
          exact Nat.sub_le _ _
  case h_3 => cases h
  case h_4 => cases h

theorem waiting_of_recvRound {tmot rBufLen : Int} {st st' : RecvSt maxbufLen} {r : ReadRound}
    (h : recvRound tmot rBufLen st r = .waiting st') : st' = st := by
  unfold recvRound at h
  split at h
  case h_1 =>
    cases h
    rfl
  case h_2 e _ =>
    unfold recvReadable at h
    split at h
    · split at h <;> cases h
    · simp only at h
      split at h
      · split at h <;> cases h
      · split at h <;> cases h
  case h_3 => cases h
  case h_4 => cases h

/-! ## Steps -/

section Step

variable {cfg : CommSvrSocket} {s s' : Child} {a : ChildAct}

/-- A round of a loop, which goes on if the round is idle. -/
theorem rank_round {P : Prop} (hle : s'.pc.rank ≤ s.pc.rank) (harmed : s'.armed = s.armed)
    (hlt : P → s'.pc.rank < s.pc.rank) : s'.rank ≤ s.rank ∧ (P → s'.rank < s.rank) := by
  rw [Child.rank, Child.rank, harmed]
  exact ⟨Nat.add_le_add_right hle _, fun hP => Nat.add_lt_add_right (hlt hP) _⟩

/-- A step to a place of a lower rank that leaves the alarm alone. -/
theorem rank_falls {P : Prop} (hlt : s'.pc.rank < s.pc.rank) (harmed : s'.armed = s.armed) :
    s'.rank ≤ s.rank ∧ (P → s'.rank < s.rank) :=
  rank_round (Nat.le_of_lt hlt) harmed fun _ => hlt

/-- The alarm leads to a place of this rank at most, and is used up. -/
theorem rank_alarm {P : Prop} (hpc : s'.pc.rank < 5 + maxbufLen) (harmed : s.armed = true)
    (harmed' : s'.armed = false) : s'.rank ≤ s.rank ∧ (P → s'.rank < s.rank) := by
  have hlt : s'.rank < s.rank := by
    simp only [Child.rank, harmed, harmed', if_true, Bool.false_eq_true, if_false]
    omega
  exact ⟨Nat.le_of_lt hlt, fun _ => hlt⟩

/-- The step lemma. -/
theorem rank_step (h : childStep cfg s a = some s') :
    s'.rank ≤ s.rank ∧ (s.idle cfg a = false → s'.rank < s.rank) := by
  cases move_of_childStep h with
  | portFound hpc => exact rank_falls (by simp only [hpc, Pc.rank]; omega) rfl
  | portMissing hpc => exact rank_falls (by simp only [hpc, Pc.rank]; omega) rfl
  | setAlarm hpc =>
      -- The alarm is set here, and nowhere else.
      have hlt : Child.rank { s with pc := .alarmSet, armed := cfg.waterTimeout ≠ 0 } < s.rank := by
        simp only [Child.rank, hpc, Pc.rank]
        split <;> split <;> omega
      exact ⟨Nat.le_of_lt hlt, fun _ => hlt⟩
  | enter errno rcvbuf stream hpc =>
      exact rank_falls (by simp only [hpc, Pc.rank, recvInit]; omega) rfl
  | recvAgain r rBufLen st st' hpc hleft hround =>
      rcases hround with hround | hround
      · have hle := left_of_recvRound hround
        refine rank_round (by simp only [hpc, Pc.rank]; omega) rfl fun hbusy => ?_
        have hne : st'.left ≠ st.left := by simpa [Child.idle, hpc, hround] using hbusy
        simp only [hpc, Pc.rank]
        omega
      · -- `select` has not returned.
        rw [waiting_of_recvRound hround]
        refine rank_round (by rw [hpc]) rfl fun hbusy => ?_
        simp [Child.idle, hpc, hround] at hbusy
  | recvReturns r rBufLen st st' v hpc => exact rank_falls (by simp only [hpc, Pc.rank]; omega) rfl
  | recvFaults r rBufLen st st' hpc => exact rank_falls (by simp only [hpc, Pc.rank]; omega) rfl
  | recvFull rBufLen st hpc => exact rank_falls (by simp only [hpc, Pc.rank]; omega) rfl
  | parses recvMsg req hpc => exact rank_falls (by simp only [hpc, Pc.rank]; omega) rfl
  | parseFaults recvMsg hpc => exact rank_falls (by simp only [hpc, Pc.rank]; omega) rfl
  | calls o req t hpc => exact rank_falls (by simp only [hpc, Pc.rank]; omega) rfl
  | callFaults o req hpc => exact rank_falls (by simp only [hpc, Pc.rank]; omega) rfl
  | formats req t resp hpc hresp =>
      have hlen := sendlen_lt_of_formatResponse hresp
      exact rank_falls (by simp only [hpc, Pc.rank, sendInit]; omega) rfl
  | formatFaults req t hpc => exact rank_falls (by simp only [hpc, Pc.rank]; omega) rfl
  | sends r resp st st' hpc hround =>
      have hle := left_of_sendRound hround
      refine rank_round (by simp only [hpc, Pc.rank]; omega) rfl fun hbusy => ?_
      have hne : st'.left ≠ st.left := by simpa [Child.idle, hpc, hround] using hbusy
      simp only [hpc, Pc.rank]
      omega
  | sendFails r resp st st' v hpc =>
      exact rank_falls (by simp only [hpc, Pc.rank, parseReturn]; omega) rfl
  | sendEnds resp st hpc => exact rank_falls (by simp only [hpc, Pc.rank, parseReturn]; omega) rfl
  | parseReturns ret hpc => exact rank_falls (by simp only [hpc, Pc.rank]; omega) rfl
  | formatsTimeout resp hpc hresp =>
      have hlen := sendlen_lt_of_formatTimeout hresp
      exact rank_falls (by simp only [hpc, Pc.rank, sendInit]; omega) rfl
  | formatTimeoutFaults hpc => exact rank_falls (by simp only [hpc, Pc.rank]; omega) rfl
  | sendsTimeout r resp st st' hpc hround =>
      have hle := left_of_sendRound hround
      refine rank_round (by simp only [hpc, Pc.rank]; omega) rfl fun hbusy => ?_
      have hne : st'.left ≠ st.left := by simpa [Child.idle, hpc, hround] using hbusy
      simp only [hpc, Pc.rank]
      omega
  | timeoutFails r resp st st' v hpc => exact rank_falls (by simp only [hpc, Pc.rank]; omega) rfl
  | timeoutEnds resp st hpc => exact rank_falls (by simp only [hpc, Pc.rank]; omega) rfl
  | closes ret hpc => exact rank_falls (by simp only [hpc, Pc.rank]; omega) rfl
  | exits hpc => exact rank_falls (by simp only [hpc, Pc.rank]; omega) rfl
  | jumps harmed => exact rank_alarm (by simp only [Pc.rank]; omega) harmed rfl
  | strays harmed => exact rank_alarm (by simp only [Pc.rank]; omega) harmed rfl

end Step

/-- The steps of a run that are not idle. -/
def Child.busy (cfg : CommSvrSocket) (s : Child) (a : ChildAct) : List ChildAct :=
  if s.idle cfg a then [] else [a]

/-- Whatever its peer, Tuxedo and the alarm do, a child makes no more than so many steps in which it does
not wait. -/
theorem child_bounded {cfg : CommSvrSocket} {as : List ChildAct} {s : Child}
    (h : exec (childStep cfg) Child.init as = some s) :
    (emitted (childStep cfg) (Child.busy cfg) Child.init as).length ≤ 16 + 3 * maxbufLen := by
  have hpay : ∀ s a s', childStep cfg s a = some s' → (Child.busy cfg s a).length + s'.rank ≤ s.rank := by
    intro s a s' hstep
    rcases rank_step hstep with ⟨hle, hlt⟩
    unfold Child.busy
    split
    case isTrue => simpa using hle
    case isFalse hbusy =>
      have hfall := hlt (by simpa using hbusy)
      simp only [List.length_singleton]
      omega
  have hsum : (emitted (childStep cfg) (Child.busy cfg) Child.init as).length + s.rank ≤
      Child.init.rank := length_emitted_le hpay h
  rw [Child.rank_init] at hsum
  omega

/-- `1$A$b` comes in two parts and is answered with `B`, and the child exits. -/
def answeringActs : List ChildAct :=
  [.localPort true, .go, .enter .clear (.value 87380) [0x31, dollar, 0x41, dollar, 0x62],
   .recv ⟨[.event true (.value 2)], .data 2⟩, .recv ⟨[.event true (.value 3)], .data 3⟩,
   .recv ⟨[.expired], .data 0⟩, .go, .tux (.returning 0 1 [0x42]), .go, .send (.accepted 3),
   .send (.accepted 3), .go, .go, .go]

theorem child_bounded_sample :
    (emitted (childStep CommSvrSocket.shipped) (Child.busy CommSvrSocket.shipped) Child.init
      answeringActs).length ≤ 16 + 3 * maxbufLen := by
  have hrun : (exec (childStep CommSvrSocket.shipped) Child.init answeringActs).isSome = true := by
    decide +kernel
  rcases Option.isSome_iff_exists.1 hrun with ⟨s, hs⟩
  exact child_bounded hs

end CommServer
