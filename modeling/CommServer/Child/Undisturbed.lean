import CommServer.Child.Completion

/-!
# Undisturbed — a child for which nothing goes wrong

No alarm strikes, no call fails, and the reception ends only when the whole request has come
(`Undisturbed`).  Such a child forms the answer to that request, and is done only when it has sent all
of it (`Child.Whole False`).

* `undisturbed_step` : the step lemma of the invariant `Child.Serves`.
-/

namespace CommServer

open CLib Transition Protocol

/-- How many bytes have come when the reception ends with the round `r`. -/
def Child.endsAt (cfg : CommSvrSocket) (c : Child) (r : ReadRound) : Option Nat :=
  match c.pc with
  | .receiving rBufLen st =>
      match recvRound (cfg.waterTimeout.tdiv 10) rBufLen st r with
      | .done st' _ => some st'.readed
      | _ => none
  | _ => none

/-- The call that the child is about to make. -/
def Child.request (c : Child) : Option Request :=
  match c.pc with
  | .calling req => some req
  | _ => none

/-- Nothing goes wrong in this step of a child whose peer sends `text`, and `tux` is how the Tuxedo
system answers calls. -/
def Undisturbed (cfg : CommSvrSocket) (text : List Byte) (tux : List Byte → List Byte → TuxOutcome → Prop)
    (c : Child) : ChildAct → Prop
  | .go | .enter _ _ _ => True
  | .localPort ok => ok = true
  | .recv r => ∀ n ∈ c.endsAt cfg r, n = text.length
  | .tux o => ∀ req ∈ c.request, tux req.tranCode.str req.requestData.str o
  | .send (.failed e) => e = .eintr
  | .send (.accepted _) => True
  | .sigalrm => False

instance (cfg : CommSvrSocket) (text : List Byte) (tux : List Byte → List Byte → TuxOutcome → Prop)
    [∀ code data o, Decidable (tux code data o)] (c : Child) :
    (a : ChildAct) → Decidable (Undisturbed cfg text tux c a)
  | .go | .enter _ _ _ => isTrue trivial
  | .localPort ok => inferInstanceAs (Decidable (ok = true))
  | .recv r => inferInstanceAs (Decidable (∀ n ∈ c.endsAt cfg r, n = text.length))
  | .tux o =>
      inferInstanceAs (Decidable (∀ req ∈ c.request, tux req.tranCode.str req.requestData.str o))
  | .send (.failed e) => inferInstanceAs (Decidable (e = .eintr))
  | .send (.accepted _) => isTrue trivial
  | .sigalrm => isFalse id

/-- No call is answered with a negative length. -/
def Measured (tux : List Byte → List Byte → TuxOutcome → Prop) : Prop :=
  ∀ code data o, tux code data o → o.Answered → 0 ≤ o.recvlen.toInt

/-- What is known of such a child on its way, where the alarm does not strike. -/
structure Child.Serves (text : List Byte) (tux : List Byte → List Byte → TuxOutcome → Prop) (c : Child) :
    Prop where
  inv : c.Inv
  origin : c.Origin (· = text) tux
  whole : c.Whole False

section Step

variable {cfg : CommSvrSocket} {text written : List Byte}
  {tux : List Byte → List Byte → TuxOutcome → Prop} {c c' : Child} {a : ChildAct}

theorem beforeOutput_of_undisturbed (hC : Undisturbed cfg text tux c a) : BeforeOutput c a := by
  rintro rfl
  exact hC.elim

theorem callsTo_of_undisturbed (hC : Undisturbed cfg text tux c a) :
    CallsTo tux c a := by
  rintro req o hpc rfl
  exact hC req (by simp [Child.request, hpc])

/-- The reception leaves the whole request. -/
theorem readsTo_of_undisturbed (hclean : (0 : Byte) ∉ text) (hshort : text.length < maxbufLen)
    (hwritten : written <+: text) (hhears : c.Hears written) (hC : Undisturbed cfg text tux c a) :
    ReadsTo cfg (· = text) c a := by
  intro s' recvMsg hstep hpc'
  rcases received_of_childStep hstep hpc' with ⟨rBufLen, st, hpc, hend⟩
  have hst : RecvInv (Buf.zeroed maxbufLen) maxbufLen written st := by
    simpa only [Child.Hears, hpc] using hhears
  have hlen := hwritten.length_le
  rcases hend with ⟨hleft, -⟩ | ⟨r, st', v, rfl, hleft, hround, rfl⟩
  · -- The array is larger than the request.
    have hcount := hst.count
    have hbound := hst.bound
    omega
  · have hinv := recvRound_inv (cfg.waterTimeout.tdiv 10) rBufLen r (Nat.le_refl _) hleft hst
    rw [hround] at hinv
    have hreaded : st'.readed = text.length := hC _ (by simp [Child.endsAt, hpc, hround])
    have hbound := hinv.1.bound
    have hall : written = text := hwritten.eq_of_length (by omega)
    obtain ⟨n, hn⟩ : ∃ n, maxbufLen - text.length = n + 1 := ⟨maxbufLen - text.length - 1, by omega⟩
    show cstr st'.buf.bytes = text
    rw [hinv.1.bytes, hall, hreaded, List.take_length, Buf.bytes_zeroed, List.drop_replicate, hn,
      List.replicate_succ, cstr_append_zero hclean]

/-- Nothing impedes a child for which nothing goes wrong. -/
theorem unimpeded_of_undisturbed (hpos : Measured tux) (hC : Undisturbed cfg text tux c a)
    (hstep : childStep cfg c a = some c') : Unimpeded False c a := by
  cases a with
  | go => trivial
  | enter errno rcvbuf stream => trivial
  | recv r => trivial
  | localPort ok => exact hC
  | send r =>
      cases r with
      | accepted n => trivial
      | failed e => exact hC
  | tux o =>
      simp only [childStep] at hstep
      split at hstep
      case h_1 req hpc =>
        have ho : tux req.tranCode.str req.requestData.str o :=
          hC req (by simp [Child.request, hpc])
        exact hpos _ _ _ ho
      case h_2 => cases hstep
  | sigalrm => exact hC.elim

/-- The step lemma. -/
theorem undisturbed_step (hclean : (0 : Byte) ∉ text) (hshort : text.length < maxbufLen)
    (hpos : Measured tux) (hwritten : written <+: text) (hhears : c.Hears written) (h : c.Serves text tux)
    (hC : Undisturbed cfg text tux c a) (hstep : childStep cfg c a = some c') :
    c'.Serves text tux := by
  refine ⟨inv_step h.inv (beforeOutput_of_undisturbed hC) hstep,
    origin_step h.origin (readsTo_of_undisturbed hclean hshort hwritten hhears hC)
      (callsTo_of_undisturbed hC) hstep, ?_⟩
  have hshort' : ∀ msg, msg = text → msg.length < maxbufLen := fun _ hmsg => hmsg ▸ hshort
  exact whole_step h.inv h.origin hshort' hhears h.whole (unimpeded_of_undisturbed hpos hC hstep) hstep

end Step

theorem serves_init (text : List Byte) (tux : List Byte → List Byte → TuxOutcome → Prop) :
    Child.init.Serves text tux :=
  ⟨Child.inv_init, origin_init, trivial⟩

section Served

variable {text : List Byte} {tux : List Byte → List Byte → TuxOutcome → Prop} {c : Child}

/-- The response of such a child is the answer. -/
theorem Child.Serves.sendMsg {resp : Response} (h : c.Serves text tux)
    (hnormal : c.normal = some resp) :
    ∃ o, tux (askedCode text) (askedData text) o ∧ resp.sendMsg.str = (answerTo text o).text := by
  rcases h.origin.normal resp hnormal with ⟨msg, o, rfl, ho, hcarries⟩
  exact ⟨o, ho, hcarries.sendMsg⟩

/-- When it is done, all of the answer is on its wire, -/
theorem Child.Serves.wire_of_done (h : c.Serves text tux) (hdone : c.pc = .closed ∨ c.pc = .exited) :
    ∃ o, tux (askedCode text) (askedData text) o ∧ c.wire = (answerTo text o).text := by
  rcases h.whole.complete hdone with ⟨halarm, -⟩ | ⟨resp, hnormal, hwire⟩
  · exact halarm.elim
  · rcases h.sendMsg hnormal with ⟨o, ho, htext⟩
    exact ⟨o, ho, hwire.trans htext⟩

/-- and until then a part of it. -/
theorem Child.Serves.wire_prefix (h : c.Serves text tux) (hne : c.wire ≠ []) :
    ∃ o, tux (askedCode text) (askedData text) o ∧ c.wire <+: (answerTo text o).text := by
  have hends : (∃ resp, c.normal = some resp ∧ c.wire <+: resp.sendMsg.str) →
      ∃ o, tux (askedCode text) (askedData text) o ∧ c.wire <+: (answerTo text o).text := by
    rintro ⟨resp, hnormal, hwire⟩
    rcases h.sendMsg hnormal with ⟨o, ho, htext⟩
    exact ⟨o, ho, htext ▸ hwire⟩
  have hall : c.Complete False →
      ∃ o, tux (askedCode text) (askedData text) o ∧ c.wire <+: (answerTo text o).text := by
    rintro (⟨halarm, -⟩ | ⟨resp, hnormal, hwire⟩)
    · exact halarm.elim
    · exact hends ⟨resp, hnormal, hwire ▸ List.prefix_refl _⟩
  have hinv := h.inv
  have hwhole := h.whole
  cases hpc : c.pc with
  | sending resp st =>
      simp only [Child.Inv, hpc] at hinv
      rcases hinv with ⟨hnormal, m, hsends⟩
      exact hends ⟨resp, hnormal, hsends.carries.sendMsg ▸ hsends.wire_prefix⟩
  | calling req =>
      simp only [Child.Inv, hpc] at hinv
      exact absurd hinv.1 hne
  | called req t =>
      simp only [Child.Inv, hpc] at hinv
      exact absurd hinv.1 hne
  -- Behind `process_parse`.
  | parseReturned ret => exact hall (by simpa only [Child.Whole, hpc] using hwhole)
  | mainReturned ret => exact hall (by simpa only [Child.Whole, hpc] using hwhole)
  | closed => exact hall (by simpa only [Child.Whole, hpc] using hwhole)
  | exited => exact hall (by simpa only [Child.Whole, hpc] using hwhole)
  -- Off its way.
  | jumped => simp only [Child.Whole, hpc] at hwhole
  | sendingTimeout resp st => simp only [Child.Whole, hpc] at hwhole
  | faulted => simp only [Child.Whole, hpc] at hwhole
  | wild => simp only [Child.Whole, hpc] at hwhole
  | _ =>
      simp only [Child.Inv, hpc] at hinv
      exact absurd hinv hne

end Served

end CommServer
