import CommServer.Child.Undisturbed
import CommServer.Sim.Simpserv
import CommServer.Sim.SockCli
import CommServer.Src.ProcessMainSpec

/-!
# Dialogue — the test client and a connection child

The `main` of `sim/sock_cli/sock_cli.c` writes `sendbuf` at once and reads with `readn` until its buffer
is full or the child has hung up.  Client and child take their steps in any order; what one has sent
and the other has not read yet is on its way, in order.

* `dialogueStep`      : the two parties;
* `Dialogue.Fifo`     : what each party has is a part of what the other has sent;
* `dialogue_answered` : the client reads a part of one response, to nothing but its own text;
* `dialogue_complete` : undisturbed, it has read the whole answer when `readn` returns.
-/

namespace CommServer
namespace Sim

open CLib Transition Protocol

/-! ## The parties -/

/-- `MAXLINE`, as the `size_t` that `readn` is called with. -/
def maxlineSize : UInt64 := 1024

/-- Where the client is. -/
inductive Client
  /-- `connect` has returned. -/
  | connected
  /-- In `readn`, which is `recvn` with `read` in place of `recv`. -/
  | reading (s : RecvnSt maxline)
  /-- `readn` has returned. -/
  | returned (n : Int) (buf : Buf maxline)
  | faulted

structure Dialogue where
  client : Client
  /-- What the client has written. -/
  written : List Byte
  child : Child

def Dialogue.init : Dialogue where
  client := .connected
  written := []
  child := Child.init

/-- What decides a step: how much `write` takes, what `read` answers, the end of the loop of `readn`,
or what decides a step of the child. -/
inductive DialogueAct
  | write (n : Nat)
  | read (r : RecvResult)
  | finish
  | child (a : ChildAct)

/-- No bytes will come from the child any more. -/
def gone : Pc → Bool
  | .closed | .exited | .faulted | .wild => true
  | _ => false

/-- What the client writes waits for the child in its `recv`. -/
def deliver (c : Child) (bytes : List Byte) : Child :=
  match c.pc with
  | .receiving rBufLen st => { c with pc := .receiving rBufLen { st with inbox := st.inbox ++ bytes } }
  | _ => c

/-- `read` blocks as long as there is nothing to read, and returns 0 only when the child has hung up. -/
def answers (wire : List Byte) (pc : Pc) (s : RecvnSt maxline) : RecvResult → Bool
  | .failed _ => true
  | .data m => if s.ptr < wire.length then 0 < m else gone pc

/-- The child begins to read where the client has begun to write. -/
def enters (written : List Byte) : ChildAct → Bool
  | .enter _ _ stream => stream = written
  | _ => true

/-- One step of one of the two, where `text` is the string in `sendbuf`. -/
def dialogueStep (cfg : CommSvrSocket) (text : List Byte) (d : Dialogue) :
    DialogueAct → Option Dialogue
  | .write n =>
      match d.client with
      | .connected =>
          some
            { client := .reading
                { buf := Buf.zeroed maxline
                  nleft := maxlineSize.toInt64.toInt
                  ptr := 0
                  inbox := [] }
              written := text.take n
              child := deliver d.child (text.take n) }
      | _ => none
  | .read r =>
      match d.client with
      | .reading s =>
          if s.nleft > 0 ∧ answers d.child.wire d.child.pc s r then
            match recvnRound maxlineSize { s with inbox := d.child.wire.drop s.ptr } r with
            | .again s' => some { d with client := .reading s' }
            | .waiting s' => some { d with client := .reading s' }
            | .done s' (.ret n) => some { d with client := .returned n s'.buf }
            | .done _ .fault => some { d with client := .faulted }
          else none
      | _ => none
  | .finish =>
      match d.client with
      | .reading s =>
          if s.nleft > 0 then none
          else some { d with client := .returned (recvnRet maxlineSize s.nleft) s.buf }
      | _ => none
  | .child a =>
      if enters d.written a then
        (childStep cfg d.child a).map fun c => { d with child := c }
      else none

/-- What a step can do. -/
inductive DialogueMove (cfg : CommSvrSocket) (text : List Byte) (d : Dialogue) :
    DialogueAct → Dialogue → Prop
  | write (n : Nat) (hclient : d.client = .connected) :
      DialogueMove cfg text d (.write n)
        { client := .reading
            { buf := Buf.zeroed maxline
              nleft := maxlineSize.toInt64.toInt
              ptr := 0
              inbox := [] }
          written := text.take n
          child := deliver d.child (text.take n) }
  | readAgain (r : RecvResult) (s s' : RecvnSt maxline) (hclient : d.client = .reading s)
      (hleft : s.nleft > 0) (hanswers : answers d.child.wire d.child.pc s r = true)
      (hround : recvnRound maxlineSize { s with inbox := d.child.wire.drop s.ptr } r = .again s' ∨
        recvnRound maxlineSize { s with inbox := d.child.wire.drop s.ptr } r = .waiting s') :
      DialogueMove cfg text d (.read r) { d with client := .reading s' }
  | readDone (r : RecvResult) (s s' : RecvnSt maxline) (v : RecvEnd) (hclient : d.client = .reading s)
      (hleft : s.nleft > 0) (hanswers : answers d.child.wire d.child.pc s r = true)
      (hround : recvnRound maxlineSize { s with inbox := d.child.wire.drop s.ptr } r = .done s' v) :
      DialogueMove cfg text d (.read r)
        { d with
          client :=
            match v with
            | .ret n => .returned n s'.buf
            | .fault => .faulted }
  | finish (s : RecvnSt maxline) (hclient : d.client = .reading s) (hleft : ¬ s.nleft > 0) :
      DialogueMove cfg text d .finish { d with client := .returned (recvnRet maxlineSize s.nleft) s.buf }
  | child (a : ChildAct) (c : Child) (henters : enters d.written a = true)
      (hchild : childStep cfg d.child a = some c) :
      DialogueMove cfg text d (.child a) { d with child := c }

theorem move_of_dialogueStep {cfg : CommSvrSocket} {text : List Byte} {d d' : Dialogue}
    {a : DialogueAct} (h : dialogueStep cfg text d a = some d') : DialogueMove cfg text d a d' := by
  cases a with
  | write n =>
      simp only [dialogueStep] at h
      split at h
      case h_1 hclient =>
        cases h
        exact .write n hclient
      case h_2 => cases h
  | read r =>
      simp only [dialogueStep] at h
      split at h
      case h_1 s hclient =>
        split at h
        case isTrue hguard =>
          split at h
          case h_1 s' hround =>
            cases h
            exact .readAgain r s s' hclient hguard.1 hguard.2 (Or.inl hround)
          case h_2 s' hround =>
            cases h
            exact .readAgain r s s' hclient hguard.1 hguard.2 (Or.inr hround)
          case h_3 s' n hround =>
            cases h
            exact .readDone r s s' (.ret n) hclient hguard.1 hguard.2 hround
          case h_4 s' hround =>
            cases h
            exact .readDone r s s' .fault hclient hguard.1 hguard.2 hround
        case isFalse => cases h
      case h_2 => cases h
  | finish =>
      simp only [dialogueStep] at h
      split at h
      case h_1 s hclient =>
        split at h
        case isTrue => cases h
        case isFalse hleft =>
          cases h
          exact .finish s hclient hleft
      case h_2 => cases h
  | child a =>
      simp only [dialogueStep] at h
      split at h
      case isTrue henters =>
        rcases Option.map_eq_some_iff.1 h with ⟨c, hchild, rfl⟩
        exact .child a c henters hchild
      case isFalse => cases h

/-! ## What the client has read -/

/-- `readn` has returned what there was to read: all that the child has sent, or a full buffer. -/
structure Complete (wire : List Byte) (pc : Pc) (n : Int) (buf : Buf maxline) : Prop where
  count : n = (min maxline wire.length : Nat)
  ended : maxline ≤ wire.length ∨ gone pc = true
  stored : (Buf.zeroed maxline).blit 0 (wire.take maxline) = some buf

/-- The client has read a part of the child's wire. -/
def Client.Reads (wire : List Byte) (pc : Pc) : Client → Prop
  | .connected => True
  | .reading s =>
      RecvnInv (Buf.zeroed maxline) 0 maxlineSize wire s.ptr { s with inbox := wire.drop s.ptr }
  | .returned n buf => n = -1 ∨ Complete wire pc n buf
  | .faulted => False

theorem maxlineSize_toNat : maxlineSize.toNat = maxline := rfl

/-- Nothing follows when the child has hung up. -/
theorem gone_of_childStep {cfg : CommSvrSocket} {c c' : Child} {a : ChildAct}
    (h : childStep cfg c a = some c') (hgone : gone c.pc = true) :
    gone c'.pc = true ∧ c'.wire = c.wire := by
  cases hpc : c.pc with
  | faulted => cases a <;> simp [childStep, hpc, Pc.running] at h
  | closed =>
      have hhung := hungUp_of_childStep h (by simp [hpc, Pc.hungUp])
      refine ⟨?_, hhung.2⟩
      cases hpc' : c'.pc <;> simp_all [Pc.hungUp, gone]
  | exited =>
      have hhung := hungUp_of_childStep h (by simp [hpc, Pc.hungUp])
      refine ⟨?_, hhung.2⟩
      cases hpc' : c'.pc <;> simp_all [Pc.hungUp, gone]
  | wild =>
      have hhung := hungUp_of_childStep h (by simp [hpc, Pc.hungUp])
      refine ⟨?_, hhung.2⟩
      cases hpc' : c'.pc <;> simp_all [Pc.hungUp, gone]
  | _ => simp [hpc, gone] at hgone

/-- What the child sends meanwhile goes behind what the client has read. -/
theorem reads_of_childStep {cfg : CommSvrSocket} {c c' : Child} {a : ChildAct} {client : Client}
    (hreads : client.Reads c.wire c.pc) (h : childStep cfg c a = some c') :
    client.Reads c'.wire c'.pc := by
  obtain ⟨x, hgrow⟩ : ∃ x, c'.wire = c.wire ++ x := by
    rcases wire_of_childStep h with hsame | ⟨-, -, x, hx⟩
    · exact ⟨[], by simp [hsame]⟩
    · exact ⟨x, hx⟩
  cases client with
  | connected => trivial
  | reading s =>
      have hbound : s.ptr ≤ c.wire.length := hreads.bound.2
      refine ⟨hreads.ptr, hreads.nleft, ⟨hreads.bound.1, ?_⟩, ?_, rfl⟩
      · rw [hgrow, List.length_append]
        omega
      · rw [hgrow, List.take_append_of_le_length hbound]
        exact hreads.stored
  | returned n buf =>
      rcases hreads with hfail | hcomplete
      · exact Or.inl hfail
      · right
        by_cases hgone : gone c.pc = true
        · rcases gone_of_childStep h hgone with ⟨hgone', hsame⟩
          rw [hsame]
          exact ⟨hcomplete.count, Or.inr hgone', hcomplete.stored⟩
        · -- The buffer was full, and stays as it is.
          have hfull : maxline ≤ c.wire.length := hcomplete.ended.resolve_right hgone
          have hlen : c.wire.length ≤ c'.wire.length := by simp [hgrow]
          refine ⟨?_, Or.inl (Nat.le_trans hfull hlen), ?_⟩
          · rw [hcomplete.count, Nat.min_eq_left hfull, Nat.min_eq_left (Nat.le_trans hfull hlen)]
          · rw [hgrow, List.take_append_of_le_length hfull]
            exact hcomplete.stored
  | faulted => exact hreads

/-- One `read` of the client. -/
theorem reads_of_read {wire : List Byte} {pc : Pc} {s : RecvnSt maxline} {r : RecvResult}
    (hreads : (Client.reading s).Reads wire pc) (hleft : s.nleft > 0)
    (hanswers : answers wire pc s r = true) :
    match recvnRound maxlineSize { s with inbox := wire.drop s.ptr } r with
    | .again s' => (Client.reading s').Reads wire pc
    | .waiting s' => (Client.reading s').Reads wire pc
    | .done s' (.ret n) =>
        ((∃ e, e ≠ .eintr ∧ r = .failed e) ∧ n = -1) ∨ Complete wire pc n s'.buf
    | .done _ .fault => False := by
  have hinv : RecvnInv (Buf.zeroed maxline) 0 maxlineSize wire s.ptr
      { s with inbox := wire.drop s.ptr } := hreads
  have hmax := maxlineSize_toNat
  have hnleft := hinv.nleft
  have hgot : s.ptr < maxline := by
    simp only [hmax] at hnleft
    omega
  cases r with
  | failed e =>
      by_cases he : e = .eintr
      · rw [he, recvnRound_eintr]
        exact hinv
      · rw [recvnRound_failed he]
        exact Or.inl ⟨⟨e, he, rfl⟩, rfl⟩
  | data m =>
      have hlen := hinv.length_chunk m
      by_cases hmore : s.ptr < wire.length
      · -- There is something to read, and it is stored behind the rest.
        have hm : 0 < m := by simpa [answers, hmore] using hanswers
        have hsome : (RecvnSt.chunk { s with inbox := wire.drop s.ptr } m).length ≠ 0 := by
          rw [hlen, hmax]
          omega
        rcases hinv.more hsome (by rw [hlen, hmax]; omega) with ⟨s', hround, hinv'⟩
        rw [hround]
        have hptr : s'.ptr = 0 + (s.ptr + (RecvnSt.chunk { s with inbox := wire.drop s.ptr } m).length) :=
          hinv'.ptr
        rw [Nat.zero_add] at hptr
        have hinbox : wire.drop s'.ptr = s'.inbox := by rw [hptr, hinv'.inbox]
        rw [← hptr] at hinv'
        show RecvnInv _ _ _ _ _ _
        rw [hinbox]
        exact hinv'
      · -- The child has hung up, and all is read.
        have hgone : gone pc = true := by simpa [answers, hmore] using hanswers
        have hbound := hinv.bound.2
        have hall : s.ptr = wire.length := by omega
        rw [recvnRound_ended (by rw [hlen]; omega), hinv.ret (by decide)]
        refine Or.inr ⟨?_, Or.inr hgone, ?_⟩
        · rw [hall, Nat.min_eq_right (by omega)]
        · have hstored := hinv.stored
          rw [hall, List.take_length] at hstored
          rw [List.take_of_length_le (by omega)]
          exact hstored

/-- The end of the loop of `readn`: the buffer is full. -/
theorem reads_of_finish {wire : List Byte} {pc : Pc} {s : RecvnSt maxline}
    (hreads : (Client.reading s).Reads wire pc) (hleft : ¬ s.nleft > 0) :
    Complete wire pc (recvnRet maxlineSize s.nleft) s.buf := by
  have hinv : RecvnInv (Buf.zeroed maxline) 0 maxlineSize wire s.ptr
      { s with inbox := wire.drop s.ptr } := hreads
  have hnleft : s.nleft = (maxlineSize.toNat : Int) - s.ptr := hinv.nleft
  have hbound := hinv.bound
  rw [maxlineSize_toNat] at hbound
  have hfull : s.ptr = maxline := by
    rw [maxlineSize_toNat] at hnleft
    omega
  refine ⟨?_, Or.inl (hfull ▸ hbound.2), ?_⟩
  · rw [hinv.ret (by decide), hfull, Nat.min_eq_left (hfull ▸ hbound.2)]
  · have hstored := hinv.stored
    rw [hfull] at hstored
    exact hstored

/-! ## The invariant -/

structure Dialogue.Fifo (text : List Byte) (d : Dialogue) : Prop where
  written : d.written <+: text
  /-- Nothing is written before the one `write`. -/
  silent : d.client = .connected → d.written = []
  hears : d.child.Hears d.written
  reads : d.client.Reads d.child.wire d.child.pc

@[simp] theorem wire_deliver (c : Child) (bytes : List Byte) : (deliver c bytes).wire = c.wire := by
  unfold deliver
  split <;> rfl

@[simp] theorem normal_deliver (c : Child) (bytes : List Byte) :
    (deliver c bytes).normal = c.normal := by
  unfold deliver
  split <;> rfl

theorem hears_deliver {c : Child} {written : List Byte} (h : c.Hears written) (bytes : List Byte) :
    (deliver c bytes).Hears (written ++ bytes) := by
  unfold deliver
  split
  case h_1 rBufLen st hpc =>
    have hst : RecvInv (Buf.zeroed maxbufLen) maxbufLen written st := by
      simpa only [Child.Hears, hpc] using h
    have hbound := hst.bound
    refine ⟨hst.count, ?_, ?_, ?_⟩
    · rw [List.length_append]
      exact Nat.le_add_right_of_le hbound
    · rw [List.take_append_of_le_length hbound]
      exact hst.stored
    · show st.inbox ++ bytes = _
      rw [hst.inbox, List.drop_append_of_le_length hbound]
  case h_2 hpc =>
    unfold Child.Hears
    split
    case h_1 rBufLen st hpc' => exact absurd hpc' (hpc rBufLen st)
    case h_2 => trivial

theorem fifo_init (text : List Byte) : Dialogue.init.Fifo text :=
  ⟨List.nil_prefix, fun _ => rfl, trivial, trivial⟩

theorem fifo_step {cfg : CommSvrSocket} {text : List Byte} {d d' : Dialogue} {a : DialogueAct}
    (h : d.Fifo text) (hstep : dialogueStep cfg text d a = some d') : d'.Fifo text := by
  cases move_of_dialogueStep hstep with
  | write n hclient =>
      refine ⟨List.take_prefix _ _, fun hc => (nomatch hc), ?_, ?_⟩
      · have hhears := hears_deliver h.hears (text.take n)
        rwa [h.silent hclient, List.nil_append] at hhears
      · exact recvnInv_init (Buf.zeroed maxline) 0 maxlineSize (Nat.zero_le _) (by decide) _
  | readAgain r s s' hclient hleft hanswers hround =>
      have hread := reads_of_read (hclient ▸ h.reads) hleft hanswers
      refine ⟨h.written, fun hc => (nomatch hc), h.hears, ?_⟩
      rcases hround with hround | hround
      · rw [hround] at hread
        exact hread
      · rw [hround] at hread
        exact hread
  | readDone r s s' v hclient hleft hanswers hround =>
      have hread := reads_of_read (hclient ▸ h.reads) hleft hanswers
      rw [hround] at hread
      cases v with
      | ret n => exact ⟨h.written, fun hc => (nomatch hc), h.hears, hread.imp_left And.right⟩
      | fault => exact hread.elim
  | finish s hclient hleft =>
      have hcomplete := reads_of_finish (hclient ▸ h.reads) hleft
      exact ⟨h.written, fun hc => (nomatch hc), h.hears, Or.inr hcomplete⟩
  | child a c henters hchild =>
      refine ⟨h.written, h.silent, ?_, reads_of_childStep h.reads hchild⟩
      refine hears_step h.hears ?_ hchild
      rintro errno rcvbuf stream rfl
      exact of_decide_eq_true henters

/-- What `readn` has read and counted is in front of zeros. -/
structure PartOf (text : List Byte) (n : Int) (buf : Buf maxline) : Prop where
  count : ∃ got, n = (got : Nat) ∧ got ≤ text.length ∧
    buf.bytes = text.take got ++ List.replicate (maxline - got) 0

theorem Complete.bytes {wire : List Byte} {pc : Pc} {n : Int} {buf : Buf maxline}
    (h : Complete wire pc n buf) :
    buf.bytes = wire.take maxline ++ List.replicate (maxline - (wire.take maxline).length) 0 := by
  have hbytes := ((Buf.blit_eq_some_iff _ _ _ _).1 h.stored).2
  rw [hbytes, List.take_zero, List.nil_append, Nat.zero_add, Buf.bytes_zeroed, List.drop_replicate]

/-- What the client has read is a part of every text that the child has sent a part of. -/
theorem Complete.partOf {wire text : List Byte} {pc : Pc} {n : Int} {buf : Buf maxline}
    (h : Complete wire pc n buf) (hpre : wire <+: text) : PartOf text n buf := by
  have hlen := hpre.length_le
  refine ⟨min maxline wire.length, h.count, by omega, ?_⟩
  have htake : wire.take maxline = text.take (min maxline wire.length) := by
    rw [List.prefix_iff_eq_take.1 hpre, List.take_take, List.length_take, Nat.min_eq_left hlen]
  rw [h.bytes, List.length_take, htake]

/-- The client has read all that it has room for. -/
theorem Complete.all {wire : List Byte} {pc : Pc} {n : Int} {buf : Buf maxline}
    (h : Complete wire pc n buf) {text : List Byte} (hpre : wire <+: text)
    (hall : gone pc = true → wire = text) :
    n = (min maxline text.length : Nat) ∧
      buf.bytes = text.take maxline ++ List.replicate (maxline - text.length) 0 := by
  have htake : wire.take maxline = text.take maxline ∧
      min maxline wire.length = min maxline text.length := by
    rcases h.ended with hfull | hgone
    · have hlen := hpre.length_le
      refine ⟨?_, by omega⟩
      rw [List.prefix_iff_eq_take.1 hpre, List.take_take, Nat.min_eq_left hfull]
    · exact hall hgone ▸ ⟨rfl, rfl⟩
  have hcount := h.count
  rw [htake.2] at hcount
  refine ⟨hcount, ?_⟩
  rw [h.bytes, htake.1, List.length_take]
  congr 2
  omega

/-! ## The files of `sim` -/

/-- `sim/sock_cli/TOUPPER`. -/
def toupperFile : List Byte :=
  ascii "9$TOUPPER$asdf1234dff|||||||||||bbbb\n"

/-- The response comes in two parts, of which the client reads the first in two. -/
def toupperRun : List DialogueAct :=
  [.child (.localPort true), .child .go, .child (.enter .clear (.value 87380) []), .write 100,
   .child (.recv ⟨[.event true (.value 37)], .data 37⟩), .child (.recv ⟨[.expired], .data 0⟩),
   .child .go, .child (.tux (toupperService (askedData toupperFile))), .child .go,
   .child (.send (.accepted 20)), .read (.data 15), .child (.send (.accepted 100)), .child .go,
   .read (.data 5), .read (.data 100), .child .go, .child .go, .read (.data 1)]

def Client.result : Client → Option (Int × List Byte)
  | .returned n buf => some (n, buf.str)
  | _ => none

theorem toupperRun_result :
    (exec (dialogueStep CommSvrSocket.shipped toupperFile) Dialogue.init toupperRun).map
      (fun d => d.client.result) =
        some (some (37, ascii "0$TOUPPER$ASDF1234DFF|||||||||||BBBB\n")) := by
  decide +kernel

theorem returned_of_result {text : List Byte} {as : List DialogueAct} {n : Int} {bytes : List Byte}
    (h : (exec (dialogueStep CommSvrSocket.shipped text) Dialogue.init as).map
      (fun d => d.client.result) = some (some (n, bytes))) :
    ∃ d buf, exec (dialogueStep CommSvrSocket.shipped text) Dialogue.init as = some d ∧
      d.client = .returned n buf := by
  rcases Option.map_eq_some_iff.1 h with ⟨d, hrun, hresult⟩
  cases hclient : d.client with
  | returned k buf =>
      simp only [hclient, Client.result, Option.some.injEq, Prod.mk.injEq] at hresult
      exact ⟨d, buf, hrun, by rw [hclient, hresult.1]⟩
  | _ => simp [hclient, Client.result] at hresult

/-! ## Runs -/

/-- The alarm strikes, if at all, inside `process_main` and before the first byte of the response. -/
def Timely (d : Dialogue) : DialogueAct → Prop
  | .child act => BeforeOutput d.child act
  | _ => True

instance (c : Child) : (act : ChildAct) → Decidable (BeforeOutput c act)
  | .sigalrm => decidable_of_iff (c.pc.inMain = true ∧ c.wire = []) ⟨fun h _ => h, fun h => h rfl⟩
  | .go | .localPort _ | .enter _ _ _ | .recv _ | .tux _ | .send _ => isTrue fun h => nomatch h

instance (d : Dialogue) : (a : DialogueAct) → Decidable (Timely d a)
  | .child act => inferInstanceAs (Decidable (BeforeOutput d.child act))
  | .write _ | .read _ | .finish => isTrue trivial

structure Dialogue.Answering (text : List Byte) (d : Dialogue) : Prop where
  fifo : d.Fifo text
  inv : d.child.Inv
  origin : d.child.Origin (· <+: text) fun _ _ _ => True

theorem inv_deliver {c : Child} (h : c.Inv) (bytes : List Byte) : (deliver c bytes).Inv := by
  unfold deliver
  split
  case h_1 rBufLen st hpc => simpa only [Child.Inv, hpc] using h
  case h_2 => exact h

theorem origin_deliver {c : Child} {P : List Byte → Prop}
    {Q : List Byte → List Byte → TuxOutcome → Prop} (h : c.Origin P Q) (bytes : List Byte) :
    (deliver c bytes).Origin P Q := by
  unfold deliver
  split
  case h_1 => exact ⟨h.normal, trivial⟩
  case h_2 => exact h

theorem whole_deliver {c : Child} (h : c.Whole False) (bytes : List Byte) :
    (deliver c bytes).Whole False := by
  unfold deliver
  split
  case h_1 => trivial
  case h_2 => exact h

/-- A step of the dialogue leaves the child alone, delivers to it, or is a step of its own. -/
theorem child_of_dialogueStep {cfg : CommSvrSocket} {text : List Byte} {d d' : Dialogue}
    {a : DialogueAct} (h : dialogueStep cfg text d a = some d') :
    d'.child = d.child ∨ (∃ bytes, d'.child = deliver d.child bytes) ∨
      ∃ act, a = .child act ∧ childStep cfg d.child act = some d'.child := by
  cases move_of_dialogueStep h with
  | write n hclient => exact Or.inr (Or.inl ⟨_, rfl⟩)
  | child act c henters hchild => exact Or.inr (Or.inr ⟨act, rfl, hchild⟩)
  | readAgain => exact Or.inl rfl
  | readDone => exact Or.inl rfl
  | finish => exact Or.inl rfl

theorem answering_step {cfg : CommSvrSocket} {text : List Byte} {d d' : Dialogue} {a : DialogueAct}
    (h : d.Answering text) (hC : Timely d a) (hstep : dialogueStep cfg text d a = some d') :
    d'.Answering text := by
  have hfifo := fifo_step h.fifo hstep
  rcases child_of_dialogueStep hstep with hsame | ⟨bytes, hdeliver⟩ | ⟨act, rfl, hchild⟩
  · exact ⟨hfifo, hsame ▸ h.inv, hsame ▸ h.origin⟩
  · exact ⟨hfifo, hdeliver ▸ inv_deliver h.inv bytes, hdeliver ▸ origin_deliver h.origin bytes⟩
  · refine ⟨hfifo, inv_step h.inv hC hchild, ?_⟩
    refine origin_step h.origin ?_ (fun _ _ _ _ => trivial) hchild
    intro s' recvMsg hs' hpc'
    exact (readsTo_of_hears h.fifo.hears s' recvMsg hs' hpc').trans h.fifo.written

/-- However the two are interleaved, and however much each call moves, as long as the alarm is timely:
unless a call of its own fails, the client has read a part of one response, and that is the timeout
response or the answer to a part of the client's own text. -/
theorem dialogue_answered (cfg : CommSvrSocket) (text : List Byte) {as : List DialogueAct}
    {d : Dialogue} {n : Int} {buf : Buf maxline}
    (hC : Along (dialogueStep cfg text) Timely Dialogue.init as)
    (hrun : exec (dialogueStep cfg text) Dialogue.init as = some d)
    (hret : d.client = .returned n buf) (hn : n ≠ -1) :
    PartOf timeoutMessage.text n buf ∨
      ∃ msg o, msg <+: text ∧ PartOf (answerTo msg o).text n buf := by
  have hall : d.Answering text :=
    exec_induct_along (I := Dialogue.Answering text) (fun _ _ _ => answering_step)
      ⟨fifo_init text, Child.inv_init, origin_init⟩ hC hrun
  have hreads : (Client.returned n buf).Reads d.child.wire d.child.pc := hret ▸ hall.fifo.reads
  have hcomplete : Complete d.child.wire d.child.pc n buf := hreads.resolve_left hn
  rcases hall.origin.wire hall.inv.oneResponse with htimeout | ⟨msg, o, hmsg, -, hwire⟩
  · exact Or.inl (hcomplete.partOf htimeout)
  · exact Or.inr ⟨msg, o, hmsg, hcomplete.partOf hwire⟩

/-- The alarm strikes before the request has come. -/
def lateRun : List DialogueAct :=
  [.child (.localPort true), .child .go, .child (.enter .clear (.value 87380) []), .child .sigalrm,
   .write 100, .child .go, .child (.send (.accepted 2)), .read (.data 100),
   .child (.send (.accepted 100)), .child .go, .child .go, .read (.data 100), .read (.data 100)]

theorem dialogue_answered_sample :
    ∃ d n buf, exec (dialogueStep CommSvrSocket.shipped toupperFile) Dialogue.init lateRun = some d ∧
      d.client = .returned n buf ∧
      (PartOf timeoutMessage.text n buf ∨
        ∃ msg o, msg <+: toupperFile ∧ PartOf (answerTo msg o).text n buf) := by
  have hresult : (exec (dialogueStep CommSvrSocket.shipped toupperFile) Dialogue.init lateRun).map
      (fun d => d.client.result) = some (some (3, ascii "1$$")) := by decide +kernel
  have hC : Along (dialogueStep CommSvrSocket.shipped toupperFile) Timely Dialogue.init lateRun := by
    decide +kernel
  rcases returned_of_result hresult with ⟨d, buf, hrun, hret⟩
  exact ⟨d, 3, buf, hrun, hret, dialogue_answered _ _ hC hrun hret (by decide)⟩

/-! ## An undisturbed dialogue -/

/-- Nothing goes wrong in this step. -/
def Calm (cfg : CommSvrSocket) (text : List Byte) (tux : List Byte → List Byte → TuxOutcome → Prop)
    (d : Dialogue) : DialogueAct → Prop
  | .write _ | .finish => True
  | .read (.failed e) => e = .eintr
  | .read (.data _) => True
  | .child a => Undisturbed cfg text tux d.child a

instance (cfg : CommSvrSocket) (text : List Byte) (tux : List Byte → List Byte → TuxOutcome → Prop)
    [∀ code data o, Decidable (tux code data o)] (d : Dialogue) :
    (a : DialogueAct) → Decidable (Calm cfg text tux d a)
  | .write _ | .finish => isTrue trivial
  | .read (.failed e) => inferInstanceAs (Decidable (e = .eintr))
  | .read (.data _) => isTrue trivial
  | .child a => inferInstanceAs (Decidable (Undisturbed cfg text tux d.child a))

structure Dialogue.Served (text : List Byte) (tux : List Byte → List Byte → TuxOutcome → Prop)
    (d : Dialogue) : Prop where
  fifo : d.Fifo text
  serves : d.child.Serves text tux
  /-- `readn` has not failed. -/
  reads : ∀ n buf, d.client = .returned n buf → n ≠ -1

section Calm

variable {cfg : CommSvrSocket} {text : List Byte} {tux : List Byte → List Byte → TuxOutcome → Prop}
  {d d' : Dialogue}

theorem Complete.ne {wire : List Byte} {pc : Pc} {n : Int} {buf : Buf maxline}
    (h : Complete wire pc n buf) : n ≠ -1 := by
  have hcount := h.count
  omega

/-- A `readn` that is not disturbed does not fail. -/
theorem reads_of_calm {a : DialogueAct} (h : d.Served text tux) (hC : Calm cfg text tux d a)
    (hstep : dialogueStep cfg text d a = some d') :
    ∀ n buf, d'.client = .returned n buf → n ≠ -1 := by
  intro n buf hret
  cases move_of_dialogueStep hstep with
  | write k hclient => cases hret
  | readAgain r s s' hclient hleft hanswers hround => cases hret
  | readDone r s s' v hclient hleft hanswers hround =>
      have hread := reads_of_read (hclient ▸ h.fifo.reads) hleft hanswers
      rw [hround] at hread
      cases v with
      | fault => cases hret
      | ret k =>
          cases hret
          rcases hread with ⟨⟨e, he, rfl⟩, -⟩ | hcomplete
          · exact absurd hC he
          · exact hcomplete.ne
  | finish s hclient hleft =>
      cases hret
      exact (reads_of_finish (hclient ▸ h.fifo.reads) hleft).ne
  | child act c henters hchild => exact h.reads n buf hret

theorem served_step {a : DialogueAct} (hclean : (0 : Byte) ∉ text)
    (hshort : text.length < maxbufLen) (hpos : Measured tux) (h : d.Served text tux)
    (hC : Calm cfg text tux d a) (hstep : dialogueStep cfg text d a = some d') :
    d'.Served text tux := by
  refine ⟨fifo_step h.fifo hstep, ?_, reads_of_calm h hC hstep⟩
  rcases child_of_dialogueStep hstep with hsame | ⟨bytes, hdeliver⟩ | ⟨act, rfl, hchild⟩
  · exact hsame ▸ h.serves
  · exact hdeliver ▸ ⟨inv_deliver h.serves.inv bytes, origin_deliver h.serves.origin bytes,
      whole_deliver h.serves.whole bytes⟩
  · exact undisturbed_step hclean hshort hpos h.fifo.written h.fifo.hears h.serves hC hchild

/-- In a dialogue where nothing goes wrong a client whose `readn` has returned has read the whole answer
to its text, as far as it has room for it, in whatever order and in however many parts the two
proceed. -/
theorem dialogue_complete {as : List DialogueAct} {n : Int} {buf : Buf maxline}
    (hclean : (0 : Byte) ∉ text) (hshort : text.length < maxline) (hpos : Measured tux)
    (hC : Along (dialogueStep cfg text) (Calm cfg text tux) Dialogue.init as)
    (hrun : exec (dialogueStep cfg text) Dialogue.init as = some d)
    (hret : d.client = .returned n buf) :
    ∃ o, tux (askedCode text) (askedData text) o ∧
      n = (min maxline (answerTo text o).text.length : Nat) ∧
      buf.bytes = (answerTo text o).text.take maxline ++
        List.replicate (maxline - (answerTo text o).text.length) 0 := by
  have hroom : text.length < maxbufLen := Nat.lt_trans hshort (by decide)
  have hserved : d.Served text tux :=
    exec_induct_along (I := Dialogue.Served text tux) (fun _ _ _ => served_step hclean hroom hpos)
      ⟨fifo_init text, serves_init text tux, fun _ _ hc => (nomatch hc)⟩ hC hrun
  have hreads : (Client.returned n buf).Reads d.child.wire d.child.pc := hret ▸ hserved.fifo.reads
  have hcomplete : Complete d.child.wire d.child.pc n buf :=
    hreads.resolve_left (hserved.reads n buf hret)
  by_cases hgone : gone d.child.pc = true
  · -- It has hung up, and not because it was lost on its way.
    have hwhole := hserved.serves.whole
    have hdone : d.child.pc = .closed ∨ d.child.pc = .exited := by
      cases hpc : d.child.pc with
      | closed => exact Or.inl rfl
      | exited => exact Or.inr rfl
      | faulted => simp only [Child.Whole, hpc] at hwhole
      | wild => simp only [Child.Whole, hpc] at hwhole
      | _ => simp [gone, hpc] at hgone
    rcases hserved.serves.wire_of_done hdone with ⟨o, ho, hwire⟩
    exact ⟨o, ho, hcomplete.all (hwire ▸ List.prefix_refl _) fun _ => hwire⟩
  · have hfull : maxline ≤ d.child.wire.length := hcomplete.ended.resolve_right hgone
    have hne : d.child.wire ≠ [] := by
      intro hnil
      rw [hnil] at hfull
      exact absurd hfull (by decide)
    rcases hserved.serves.wire_prefix hne with ⟨o, ho, hwire⟩
    exact ⟨o, ho, hcomplete.all hwire fun hdone => absurd hdone hgone⟩

end Calm

theorem dialogue_complete_sample :
    ∃ d n buf o,
      exec (dialogueStep CommSvrSocket.shipped toupperFile) Dialogue.init toupperRun = some d ∧
      d.client = .returned n buf ∧
      toupperSystem (askedCode toupperFile) (askedData toupperFile) o ∧
      n = (min maxline (answerTo toupperFile o).text.length : Nat) ∧
      buf.bytes = (answerTo toupperFile o).text.take maxline ++
        List.replicate (maxline - (answerTo toupperFile o).text.length) 0 := by
  have hC : Along (dialogueStep CommSvrSocket.shipped toupperFile)
      (Calm CommSvrSocket.shipped toupperFile toupperSystem) Dialogue.init toupperRun := by
    decide +kernel
  rcases returned_of_result toupperRun_result with ⟨d, buf, hrun, hret⟩
  rcases dialogue_complete (by decide +kernel) (by decide +kernel) (fun _ _ _ ho _ => ho.2.2.1) hC hrun
    hret with ⟨o, ho, hn, hbuf⟩
  exact ⟨d, 37, buf, o, hrun, hret, ho, hn, hbuf⟩

end Sim
end CommServer
